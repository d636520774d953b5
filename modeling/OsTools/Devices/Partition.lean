import OsTools.Lib.Bytes
import OsTools.Lib.Traversal
/-!
# OsTools.Devices.Partition

Partition tables (`devices/partition.c`): the table in sector 0 and the extended tables that are
reached from it, as `partition_scan` reads them.

`read_partition_table` calls itself for every extended entry, so a scan may not come to an end. The
number `memory` of tables that there is room for bounds the depth: where `malloc` finds no room for
another table the kernel panics, and the result is `none`. The names of the partition types, which
are printed only, are left out.

What a scan is to find is stated by `Block.expand` and the traversal of the tables from sector 0.
As every table is read from sector 0, `partition_scan` finds this only where there is no other
table to read: `partition_scan_iff`.

## Proof shape

The defect is in one place: the table is always read from sector 0. So a scan with nested
tables reads the same table again and again, and what has to be found out is when that is
harmless. If the table has no link, or none that leads to a sector of the device, the
recursion is not entered and the scan is right (`Block.OneTable.scanned`). Otherwise the
table in sector 0 links to a table that is read as itself: a traversal that meets a node
within itself does not end (`OsTools.Lib.Traversal`), and a scan that does end has not read
what it should have (`Block.Scanned.oneTable`).

The recursion is bounded by memory, because each level allocates a sector. More memory
changes nothing in a scan that returns (`partitionScan_add`), so that it does not matter how
much there is. `Kept` is the induction rule for a scan: a property that each step keeps
holds at its end, and the theorems about the registered devices are instances.
-/

namespace OsTools.Devices

/-- `block_sector_t`. -/
abbrev BlockSector := UInt32

/-- `enum block_type`. -/
inductive BlockType
  | kernel
  | filesys
  | scratch
  | swap
  | raw
  | foreign
  deriving DecidableEq

/-- A block device, with the bytes of each of its sectors. -/
structure Block where
  name : String
  size : BlockSector
  sectors : BlockSector → Mem

/-- `block_read`. Reading past the end of the device is a panic. -/
def Block.read (block : Block) (sector : BlockSector) : Option Mem :=
  if block.size ≤ sector then none else some (block.sectors sector)

/-! ### The format of a partition table -/

structure PartitionTableEntry where
  /-- Partition type. -/
  type : UInt8
  /-- Start sector offset from partition table. -/
  offset : UInt32
  /-- Number of sectors. -/
  size : UInt32
  deriving DecidableEq

structure PartitionTable where
  /-- Table entries. -/
  partitions : List PartitionTableEntry
  /-- Should be `0xaa55`. -/
  signature : Nat
  deriving DecidableEq

/-- The `i`-th of the 16-byte entries, which begin behind the 446 bytes of the loader. -/
def PartitionTableEntry.ofBytes (m : Mem) (i : Nat) : PartitionTableEntry where
  type := m (446 + 16 * i + 4)
  offset := UInt32.ofNat (m.load (446 + 16 * i + 8) 4)
  size := UInt32.ofNat (m.load (446 + 16 * i + 12) 4)

/-- The table in the bytes of a sector. -/
def PartitionTable.ofBytes (m : Mem) : PartitionTable where
  partitions := [.ofBytes m 0, .ofBytes m 1, .ofBytes m 2, .ofBytes m 3]
  signature := m.load 510 2

namespace PartitionTableEntry

def isEmpty (e : PartitionTableEntry) : Bool := e.size = 0 ∨ e.type = 0

/-- An extended partition: that of DOS, Windows 98, Linux or DR-DOS. -/
def isExtended (e : PartitionTableEntry) : Bool :=
  e.type = 0x05 ∨ e.type = 0x0f ∨ e.type = 0x85 ∨ e.type = 0xc5

/-- The entry refers to another table. -/
def isLink (e : PartitionTableEntry) : Bool := !e.isEmpty && e.isExtended

end PartitionTableEntry

/-! ### The scan -/

/-- A block device that `block_register` has added, for a partition from sector `start` on. -/
structure Registration where
  name : String
  type : BlockType
  size : BlockSector
  start : BlockSector
  deriving DecidableEq

/-- What a scan has done so far. -/
structure Scan where
  /-- `*part_nr`. -/
  partNr : Nat
  /-- The new devices at the end of `all_blocks`. -/
  registered : List Registration
  /-- The sectors that `block_read` was called for. -/
  reads : List BlockSector
  /-- The lines printed. -/
  console : List String
  deriving DecidableEq

def Scan.printf (st : Scan) (line : String) : Scan := { st with console := st.console ++ [line] }

def Scan.register (st : Scan) (r : Registration) : Scan :=
  { st with registered := st.registered ++ [r] }

/-- The role of a partition in Pintos. -/
def blockTypeOf (partType : UInt8) : BlockType :=
  if partType = 0x20 then .kernel
  else if partType = 0x21 then .filesys
  else if partType = 0x22 then .scratch
  else if partType = 0x23 then .swap
  else .foreign

/-- The name that `snprintf` writes into the 16 characters. -/
def partitionName (name : String) (partNr : Nat) : String :=
  String.ofList ((name ++ toString partNr).toList.take 15)

def foundPartition (block : Block) (partType : UInt8) (start size : BlockSector) (partNr : Nat)
    (st : Scan) : Scan :=
  let name := block.name
  let last := start + size
  let sectors := block.size
  if block.size ≤ start then
    st.printf s!"{name}{partNr}: Partition starts past end of device (sector {start})\n"
  else if start + size < start ∨ block.size < start + size then
    st.printf s!"{name}{partNr}: Partition end ({last}) past end of device ({sectors})\n"
  else
    st.register {
      name := partitionName block.name partNr
      type := blockTypeOf partType
      size := size
      start := start }

/-- One entry of the table in `sector`; `recurse` reads another table. -/
def readEntry (block : Block) (recurse : BlockSector → BlockSector → Scan → Option Scan)
    (sector primaryExtendedSector : BlockSector) (st : Scan) (e : PartitionTableEntry) :
    Option Scan :=
  let name := block.name
  if e.isEmpty then some st
  else if e.isExtended then
    let st := st.printf s!"{name}: Extended partition in sector {sector}\n"
    -- the offset is absolute in the table of sector 0 only
    if sector = 0 then recurse e.offset e.offset st
    else recurse (e.offset + primaryExtendedSector) primaryExtendedSector st
  else
    let st := { st with partNr := st.partNr + 1 }
    some (foundPartition block e.type (e.offset + sector) e.size st.partNr st)

def readPartitionTable (block : Block) (memory : Nat) (sector primaryExtendedSector : BlockSector)
    (st : Scan) : Option Scan :=
  let name := block.name
  if block.size ≤ sector then
    some (st.printf s!"{name}: Partition table at sector {sector} past end of device.\n")
  else
    match memory with
    | 0 => none
    | memory + 1 => do
        let bytes ← block.read 0
        let pt := PartitionTable.ofBytes bytes
        let st := { st with reads := st.reads ++ [0] }
        if pt.signature ≠ 0xaa55 then
          if primaryExtendedSector = 0 then
            some (st.printf s!"{name}: Invalid partition table signature\n")
          else
            some (st.printf
              s!"{name}: Invalid extended partition table in sector {sector}\n")
        else
          pt.partitions.foldlM
            (readEntry block (readPartitionTable block memory) sector primaryExtendedSector) st

def partitionScan (block : Block) (memory : Nat) : Option Scan := do
  let st ← readPartitionTable block memory 0 0 ⟨0, [], [], []⟩
  let name := block.name
  if st.partNr = 0 then some (st.printf s!"{name}: Device contains no partitions\n") else some st

/-! ### What a scan is to find -/

/-- A partition: its role, its first sector and the number of sectors. -/
structure Extent where
  type : BlockType
  start : Nat
  size : Nat
  deriving DecidableEq

/-- A table is read, or a partition is found. -/
inductive Finding
  | table (sector : Nat)
  | partition (e : Extent)
  deriving DecidableEq

def Finding.table? : Finding → Option Nat
  | .table s => some s
  | .partition _ => none

def Finding.partition? : Finding → Option Extent
  | .table _ => none
  | .partition e => some e

/-- A table within the extended partition from sector `primary` on. -/
structure TableRef where
  sector : Nat
  primary : Nat
  deriving DecidableEq

/-- What an entry of the table `t` refers to. -/
def Block.entry (block : Block) (t : TableRef) (e : PartitionTableEntry) :
    List (Finding ⊕ TableRef) :=
  if e.isEmpty then []
  else if e.isExtended then
    if t.sector = 0 then [.inr ⟨e.offset.toNat, e.offset.toNat⟩]
    else [.inr ⟨t.primary + e.offset.toNat, t.primary⟩]
  else if t.sector + e.offset.toNat + e.size.toNat ≤ block.size.toNat then
    [.inl (.partition ⟨blockTypeOf e.type, t.sector + e.offset.toNat, e.size.toNat⟩)]
  else []

/-- The table in a sector of the device. -/
def Block.tableAt (block : Block) (sector : Nat) : PartitionTable :=
  .ofBytes (block.sectors (UInt32.ofNat sector))

/-- The table `t` and what its entries refer to, if it is a table of the device. -/
def Block.expand (block : Block) (t : TableRef) : List (Finding ⊕ TableRef) :=
  if block.size.toNat ≤ t.sector then []
  else if (block.tableAt t.sector).signature ≠ 0xaa55 then [.inl (.table t.sector)]
  else .inl (.table t.sector) :: (block.tableAt t.sector).partitions.flatMap (block.entry t)

/-- The partition of a new device. -/
def Registration.extent (r : Registration) : Extent := ⟨r.type, r.start.toNat, r.size.toNat⟩

/-- `partition_scan` returns, having read the tables that are reached from sector 0, each from its
own sector, and registered the partitions in them, in order of appearance. -/
def Block.Scanned (block : Block) : Prop :=
  ∃ memory st found, partitionScan block memory = some st ∧
    Visits block.expand [.inr ⟨0, 0⟩] found ∧
      st.reads.map UInt32.toNat = found.filterMap Finding.table? ∧
        st.registered.map Registration.extent = found.filterMap Finding.partition?

variable {block : Block} {memory partNr : Nat} {sector primary start size : BlockSector}
  {partType : UInt8} {st st' : Scan} {e : PartitionTableEntry} {es : List PartitionTableEntry}
  {t : TableRef} {recurse recurse' : BlockSector → BlockSector → Scan → Option Scan}

/-! ### What a scan keeps -/

@[simp] theorem Scan.reads_printf (line : String) : (st.printf line).reads = st.reads := rfl

@[simp] theorem Scan.registered_printf (line : String) :
    (st.printf line).registered = st.registered := rfl

@[simp] theorem foundPartition_reads :
    (foundPartition block partType start size partNr st).reads = st.reads := by
  unfold foundPartition
  dsimp only
  split
  · rfl
  · split <;> rfl

/-- What a scan of `block` does in one step keeps the property. -/
structure Kept (block : Block) (P : Scan → Prop) : Prop where
  printf : ∀ st line, P st → P (st.printf line)
  read : ∀ st, P st → P { st with reads := st.reads ++ [0] }
  found : ∀ partType start size st, P st →
    P (foundPartition block partType start size (st.partNr + 1) { st with partNr := st.partNr + 1 })

/-- Every call of `recurse` keeps the property. -/
def Keeps (P : Scan → Prop) (recurse : BlockSector → BlockSector → Scan → Option Scan) : Prop :=
  ∀ s p st st', recurse s p st = some st' → P st → P st'

variable {P : Scan → Prop}

theorem Kept.readEntry (hkept : Kept block P) (hrec : Keeps P recurse)
    (h : readEntry block recurse sector primary st e = some st') (hst : P st) : P st' := by
  unfold Devices.readEntry at h
  dsimp only at h
  split at h
  · obtain rfl := Option.some.inj h
    exact hst
  · split at h
    · split at h
      · exact hrec _ _ _ _ h (hkept.printf _ _ hst)
      · exact hrec _ _ _ _ h (hkept.printf _ _ hst)
    · obtain rfl := Option.some.inj h
      exact hkept.found _ _ _ _ hst

theorem Kept.readEntries (hkept : Kept block P) (hrec : Keeps P recurse)
    (h : es.foldlM (Devices.readEntry block recurse sector primary) st = some st') (hst : P st) :
    P st' := by
  induction es generalizing st with
  | nil =>
      obtain rfl := Option.some.inj h
      exact hst
  | cons e es ih =>
      rw [List.foldlM_cons, Option.bind_eq_bind, Option.bind_eq_some_iff] at h
      obtain ⟨st₁, hentry, hrest⟩ := h
      exact ih hrest (hkept.readEntry hrec hentry hst)

/-- By induction on the tables that there is room for. -/
theorem Kept.keeps (hkept : Kept block P) (memory : Nat) :
    Keeps P (readPartitionTable block memory) := by
  induction memory with
  | zero =>
      intro sector primary st st' h hst
      unfold readPartitionTable at h
      dsimp only at h
      split at h
      · obtain rfl := Option.some.inj h
        exact hkept.printf _ _ hst
      · simp at h
  | succ memory ih =>
      intro sector primary st st' h hst
      unfold readPartitionTable at h
      dsimp only at h
      split at h
      · obtain rfl := Option.some.inj h
        exact hkept.printf _ _ hst
      · rw [Option.bind_eq_bind, Option.bind_eq_some_iff] at h
        obtain ⟨bytes, -, h⟩ := h
        have hread := hkept.read st hst
        split at h
        · split at h
          · obtain rfl := Option.some.inj h
            exact hkept.printf _ _ hread
          · obtain rfl := Option.some.inj h
            exact hkept.printf _ _ hread
        · exact hkept.readEntries ih h hread

/-- **What every step keeps** holds after the scan. -/
theorem Kept.partitionScan (hkept : Kept block P) (hstart : P ⟨0, [], [], []⟩)
    (h : partitionScan block memory = some st) : P st := by
  unfold Devices.partitionScan at h
  rw [Option.bind_eq_bind, Option.bind_eq_some_iff] at h
  obtain ⟨st₁, hread, h⟩ := h
  have hst := hkept.keeps memory 0 0 _ _ hread hstart
  dsimp only at h
  split at h
  · obtain rfl := Option.some.inj h
    exact hkept.printf _ _ hst
  · obtain rfl := Option.some.inj h
    exact hst

/-! ### Every table is read from sector 0 -/

/-- No sector but the first was read. -/
def Scan.OnlyFirst (st : Scan) : Prop := ∀ s ∈ st.reads, s = 0

theorem kept_onlyFirst (block : Block) : Kept block Scan.OnlyFirst where
  printf := fun _ _ h => h
  read := by
    intro st h s hs
    rcases List.mem_append.mp hs with hs | hs
    · exact h s hs
    · exact List.mem_singleton.mp hs
  found := by
    intro partType start size st h s hs
    rw [foundPartition_reads] at hs
    exact h s hs

/-! ### More memory changes nothing -/

/-- Where `recurse` returns, so does `recurse'`, with the same. -/
def Extends (recurse recurse' : BlockSector → BlockSector → Scan → Option Scan) : Prop :=
  ∀ s p st st', recurse s p st = some st' → recurse' s p st = some st'

/-- An entry that is read with the one function is read with the other, since it is called at
most once. -/
theorem Extends.readEntry (hext : Extends recurse recurse')
    (h : readEntry block recurse sector primary st e = some st') :
    Devices.readEntry block recurse' sector primary st e = some st' := by
  unfold Devices.readEntry at h ⊢
  dsimp only at h ⊢
  split at h
  · rename_i hempty
    rw [if_pos hempty]
    exact h
  · rename_i hempty
    rw [if_neg hempty]
    split at h
    · rename_i hlink
      rw [if_pos hlink]
      split at h
      · rename_i hfirst
        rw [if_pos hfirst]
        exact hext _ _ _ _ h
      · rename_i hnested
        rw [if_neg hnested]
        exact hext _ _ _ _ h
    · rename_i hpartition
      rw [if_neg hpartition]
      exact h

theorem Extends.readEntries (hext : Extends recurse recurse')
    (h : es.foldlM (Devices.readEntry block recurse sector primary) st = some st') :
    es.foldlM (Devices.readEntry block recurse' sector primary) st = some st' := by
  induction es generalizing st with
  | nil => exact h
  | cons e es ih =>
      rw [List.foldlM_cons, Option.bind_eq_bind, Option.bind_eq_some_iff] at h
      obtain ⟨st₁, hentry, hrest⟩ := h
      rw [List.foldlM_cons, hext.readEntry hentry]
      exact ih hrest

/-- More room for tables: a scan that came to its end within the old bound does the same
within the new one. By induction on the old one. -/
theorem extends_add (block : Block) (memory more : Nat) :
    Extends (readPartitionTable block memory) (readPartitionTable block (memory + more)) := by
  induction memory with
  | zero =>
      intro sector primary st st' h
      unfold readPartitionTable at h ⊢
      dsimp only at h ⊢
      split at h
      · rename_i hpast
        rw [if_pos hpast]
        exact h
      · simp at h
  | succ memory ih =>
      intro sector primary st st' h
      rw [Nat.add_right_comm]
      unfold readPartitionTable at h ⊢
      dsimp only at h ⊢
      split at h
      · rename_i hpast
        rw [if_pos hpast]
        exact h
      · rename_i hpast
        rw [if_neg hpast]
        rw [Option.bind_eq_bind, Option.bind_eq_some_iff] at h
        obtain ⟨bytes, hread, h⟩ := h
        rw [hread, Option.bind_eq_bind, Option.bind_some]
        split at h
        · rename_i hsig
          rw [if_pos hsig]
          exact h
        · rename_i hsig
          rw [if_neg hsig]
          exact ih.readEntries h

/-- A scan that returns returns the same with more memory. -/
theorem partitionScan_add (h : partitionScan block memory = some st) (more : Nat) :
    partitionScan block (memory + more) = some st := by
  unfold partitionScan at h ⊢
  rw [Option.bind_eq_bind, Option.bind_eq_some_iff] at h
  obtain ⟨st₁, hread, h⟩ := h
  rw [extends_add block memory more 0 0 _ _ hread]
  exact h

/-! ### A table without links -/

/-- A partition is registered if and only if it fits in the device. -/
theorem foundPartition_extents (hsize : size ≠ 0) :
    (foundPartition block partType start size partNr st).registered.map Registration.extent =
      st.registered.map Registration.extent ++
        if start.toNat + size.toNat ≤ block.size.toNat then
          [⟨blockTypeOf partType, start.toNat, size.toNat⟩] else [] := by
  have hpos : size.toNat ≠ 0 := fun h => hsize (UInt32.toNat.inj h)
  have hstart := start.toNat_lt
  have hlt := size.toNat_lt
  have hblock := block.size.toNat_lt
  have hsum : (start + size).toNat = (start.toNat + size.toNat) % 2 ^ 32 := UInt32.toNat_add _ _
  unfold foundPartition
  dsimp only
  split
  · rename_i hpast
    rw [UInt32.le_iff_toNat_le] at hpast
    rw [if_neg (by omega)]
    simp
  · split
    · rename_i hpast hend
      rw [UInt32.lt_iff_toNat_lt, UInt32.lt_iff_toNat_lt, hsum] at hend
      rw [if_neg (by omega)]
      simp
    · rename_i hpast hend
      rw [UInt32.lt_iff_toNat_lt, UInt32.lt_iff_toNat_lt, hsum] at hend
      rw [if_pos (by omega)]
      simp [Scan.register, Registration.extent]

/-- The links of the entries lead past the end of the device. -/
def Block.LinksPastEnd (block : Block) (es : List PartitionTableEntry) : Prop :=
  ∀ e ∈ es, e.isLink → block.size ≤ e.offset

/-- A table past the end of the device is not read. -/
theorem readPartitionTable_pastEnd (h : block.size ≤ sector) :
    ∃ line, readPartitionTable block memory sector primary st = some (st.printf line) := by
  unfold readPartitionTable
  dsimp only
  rw [if_pos h]
  exact ⟨_, rfl⟩

theorem expand_pastEnd (h : block.size.toNat ≤ t.sector) : block.expand t = [] := by
  unfold Block.expand
  rw [if_pos h]

/-- An entry of the table in sector 0. -/
theorem readEntry_first (hlink : e.isLink → block.size ≤ e.offset) :
    ∃ st' found,
      readEntry block (readPartitionTable block memory) 0 0 st e = some st' ∧
        Visits block.expand (block.entry ⟨0, 0⟩ e) found ∧ st'.reads = st.reads ∧
          found.filterMap Finding.table? = [] ∧ st'.registered.map Registration.extent =
            st.registered.map Registration.extent ++ found.filterMap Finding.partition? := by
  unfold readEntry Block.entry
  dsimp only
  by_cases hempty : e.isEmpty = true
  · rw [if_pos hempty, if_pos hempty]
    exact ⟨st, [], rfl, .nil, rfl, rfl, by simp⟩
  · rw [if_neg hempty, if_neg hempty]
    by_cases hext : e.isExtended = true
    · have hpast := hlink (by simp [PartitionTableEntry.isLink, hempty, hext])
      have hnode : block.expand ⟨e.offset.toNat, e.offset.toNat⟩ = [] :=
        expand_pastEnd (UInt32.le_iff_toNat_le.mp hpast)
      obtain ⟨line, hread⟩ := @readPartitionTable_pastEnd block memory e.offset e.offset
        (st.printf s!"{block.name}: Extended partition in sector {(0 : BlockSector)}\n") hpast
      rw [if_pos hext, if_pos hext, if_pos rfl, if_pos rfl, hread]
      refine ⟨_, [], rfl, ?_, rfl, rfl, by simp⟩
      have hvisit : Visits block.expand (block.expand ⟨e.offset.toNat, e.offset.toNat⟩) [] := by
        rw [hnode]
        exact .nil
      exact .node hvisit .nil
    · rw [if_neg hext, if_neg hext]
      have hsize : e.size ≠ 0 := by
        intro hzero
        simp [PartitionTableEntry.isEmpty, hzero] at hempty
      refine ⟨_, if e.offset.toNat + e.size.toNat ≤ block.size.toNat then
        [.partition ⟨blockTypeOf e.type, e.offset.toNat, e.size.toNat⟩] else [], rfl, ?_,
        foundPartition_reads, ?_, ?_⟩
      · rw [Nat.zero_add]
        split
        · exact .item .nil
        · exact .nil
      · split <;> rfl
      · rw [foundPartition_extents hsize, UInt32.add_zero]
        split <;> rfl

/-- The entries of the table in sector 0, in turn. -/
theorem readEntries_first (hlinks : block.LinksPastEnd es) :
    ∃ st' found,
      es.foldlM (readEntry block (readPartitionTable block memory) 0 0) st = some st' ∧
        Visits block.expand (es.flatMap (block.entry ⟨0, 0⟩)) found ∧ st'.reads = st.reads ∧
          found.filterMap Finding.table? = [] ∧ st'.registered.map Registration.extent =
            st.registered.map Registration.extent ++ found.filterMap Finding.partition? := by
  induction es generalizing st with
  | nil => exact ⟨st, [], rfl, .nil, rfl, rfl, by simp⟩
  | cons e es ih =>
      obtain ⟨st₁, found₁, hentry, hvisit₁, hreads₁, htables₁, hparts₁⟩ :=
        @readEntry_first block memory st e (hlinks e List.mem_cons_self)
      obtain ⟨st₂, found₂, hrest, hvisit₂, hreads₂, htables₂, hparts₂⟩ :=
        @ih st₁ fun e' he' => hlinks e' (List.mem_cons_of_mem _ he')
      refine ⟨st₂, found₁ ++ found₂, ?_, ?_, hreads₂.trans hreads₁, ?_, ?_⟩
      · rw [List.foldlM_cons, hentry]
        exact hrest
      · rw [List.flatMap_cons]
        exact hvisit₁.append hvisit₂
      · rw [List.filterMap_append, htables₁, htables₂]
        rfl
      · rw [hparts₂, hparts₁, List.filterMap_append, List.append_assoc]

/-! ### The scan of a device -/

/-- The links in the table of sector 0 all lead past the end of the device. -/
def Block.OneTable (block : Block) : Prop :=
  block.size = 0 ∨ (block.tableAt 0).signature ≠ 0xaa55 ∨
    block.LinksPastEnd (block.tableAt 0).partitions

/-- A scan ends with a message at most. -/
theorem partitionScan_eq_some (h : readPartitionTable block memory 0 0 ⟨0, [], [], []⟩ = some st) :
    ∃ st', partitionScan block memory = some st' ∧ st'.reads = st.reads ∧
      st'.registered = st.registered := by
  unfold partitionScan
  rw [h, Option.bind_eq_bind, Option.bind_some]
  dsimp only
  split
  · exact ⟨_, rfl, rfl, rfl⟩
  · exact ⟨_, rfl, rfl, rfl⟩

/-- The table in sector 0 of a device that has one. -/
theorem readPartitionTable_first (hroom : ¬ block.size ≤ 0) :
    readPartitionTable block (memory + 1) 0 0 st =
      if (block.tableAt 0).signature ≠ 0xaa55 then
        some (Scan.printf { st with reads := st.reads ++ [0] }
          s!"{block.name}: Invalid partition table signature\n")
      else (block.tableAt 0).partitions.foldlM
        (readEntry block (readPartitionTable block memory) 0 0)
        { st with reads := st.reads ++ [0] } := by
  have hread : block.read 0 = some (block.sectors 0) := by
    unfold Block.read
    rw [if_neg hroom]
  rw [readPartitionTable]
  dsimp only
  rw [if_neg hroom, hread, if_pos rfl]
  rfl

theorem expand_first (hroom : ¬ block.size.toNat ≤ 0)
    (hsig : ¬ (block.tableAt 0).signature ≠ 0xaa55) :
    block.expand ⟨0, 0⟩ =
      .inl (.table 0) :: (block.tableAt 0).partitions.flatMap (block.entry ⟨0, 0⟩) := by
  unfold Block.expand
  rw [if_neg hroom, if_neg hsig]

/-- Where there is one table, the scan reads it and registers its partitions. The three ways
in which there is only one are the cases: the device has no sector, the table is not valid, or
its links lead past the end of the device. -/
theorem Block.OneTable.scanned (h : block.OneTable) : block.Scanned := by
  by_cases hpast : block.size ≤ 0
  · -- a device without sectors
    obtain ⟨line, hread⟩ := @readPartitionTable_pastEnd block 0 0 0 ⟨0, [], [], []⟩ hpast
    obtain ⟨st, hscan, hreads, hregistered⟩ := partitionScan_eq_some hread
    have hvisit : Visits block.expand (block.expand ⟨0, 0⟩) [] := by
      rw [expand_pastEnd (UInt32.le_iff_toNat_le.mp hpast)]
      exact .nil
    refine ⟨0, st, [], hscan, .node hvisit .nil, ?_, ?_⟩
    · rw [hreads]
      rfl
    · rw [hregistered]
      rfl
  · have hroom : ¬ block.size.toNat ≤ 0 := fun hle => hpast (UInt32.le_iff_toNat_le.mpr hle)
    have hfirst := @readPartitionTable_first block 0 ⟨0, [], [], []⟩ hpast
    by_cases hsig : (block.tableAt 0).signature ≠ 0xaa55
    · rw [if_pos hsig] at hfirst
      obtain ⟨st, hscan, hreads, hregistered⟩ := partitionScan_eq_some hfirst
      have hvisit : Visits block.expand (block.expand ⟨0, 0⟩) [.table 0] := by
        unfold Block.expand
        rw [if_neg hroom, if_pos hsig]
        exact .item .nil
      refine ⟨1, st, [.table 0], hscan, .node hvisit .nil, ?_, ?_⟩
      · rw [hreads]
        rfl
      · rw [hregistered]
        rfl
    · rw [if_neg hsig] at hfirst
      -- the table is valid and has no extended partition on the device
      have hlinks : block.LinksPastEnd (block.tableAt 0).partitions := by
        rcases h with hzero | hbad | hlinks
        · exact absurd (UInt32.le_zero_iff.mpr hzero) hpast
        · exact absurd hbad hsig
        · exact hlinks
      obtain ⟨st₁, found, hentries, hvisit, hreads₁, htables, hparts⟩ :=
        @readEntries_first block 0 { (⟨0, [], [], []⟩ : Scan) with reads := [] ++ [0] } _ hlinks
      rw [hentries] at hfirst
      obtain ⟨st, hscan, hreads, hregistered⟩ := partitionScan_eq_some hfirst
      have htable : Visits block.expand (block.expand ⟨0, 0⟩) (.table 0 :: found) := by
        rw [expand_first hroom hsig]
        exact .item hvisit
      refine ⟨1, st, .table 0 :: found, hscan, ?_, ?_, ?_⟩
      · have hdone := Visits.node htable .nil
        rwa [List.append_nil] at hdone
      · rw [hreads, hreads₁, List.filterMap_cons, htables]
        rfl
      · rw [hregistered, hparts, List.filterMap_cons]
        rfl

/-- The sectors that a scan reads. -/
theorem partitionScan_reads (h : partitionScan block memory = some st) : st.OnlyFirst :=
  (kept_onlyFirst block).partitionScan (by simp [Scan.OnlyFirst]) h

/-- A scan that did what it should found one table. A link within the device would have to be
read from its own sector, but all reads are of sector 0; and a link back to sector 0 would
never end. -/
theorem Block.Scanned.oneTable (h : block.Scanned) : block.OneTable := by
  obtain ⟨memory, st, found, hscan, hvisit, hreads, -⟩ := h
  by_contra hmore
  obtain ⟨hzero, hmore⟩ := not_or.mp hmore
  obtain ⟨hsig, hmore⟩ := not_or.mp hmore
  unfold Block.LinksPastEnd at hmore
  simp only [not_forall] at hmore
  obtain ⟨e, he, hlink, hroom⟩ := hmore
  have hnonzero : ¬ block.size.toNat ≤ 0 := fun hle =>
    hzero (UInt32.toNat.inj (Nat.le_zero.mp hle))
  -- the table in sector 0 leads to the table in sector `e.offset`
  have href : .inr ⟨e.offset.toNat, e.offset.toNat⟩ ∈ block.expand ⟨0, 0⟩ := by
    rw [expand_first hnonzero hsig]
    refine List.mem_cons_of_mem _ (List.mem_flatMap.mpr ⟨e, he, ?_⟩)
    simp only [PartitionTableEntry.isLink, Bool.and_eq_true, Bool.not_eq_true'] at hlink
    simp [Block.entry, hlink.1, hlink.2]
  by_cases hself : e.offset.toNat = 0
  · rw [hself] at href
    exact hvisit.not_mem_expand List.mem_cons_self href
  · obtain ⟨found₁, hvisit₁, hsub₁⟩ := hvisit.of_mem List.mem_cons_self
    obtain ⟨found₂, hvisit₂, hsub₂⟩ := hvisit₁.of_mem href
    have htable : .inl (.table e.offset.toNat) ∈
        block.expand ⟨e.offset.toNat, e.offset.toNat⟩ := by
      unfold Block.expand
      rw [if_neg fun hle => hroom (UInt32.le_iff_toNat_le.mpr hle)]
      split
      · exact List.mem_cons_self
      · exact List.mem_cons_self
    have hfound : Finding.table e.offset.toNat ∈ found := hsub₁ (hsub₂ (hvisit₂.item_mem htable))
    have hread : e.offset.toNat ∈ st.reads.map UInt32.toNat := by
      rw [hreads]
      exact List.mem_filterMap.mpr ⟨_, hfound, rfl⟩
    obtain ⟨s, hs, heq⟩ := List.mem_map.mp hread
    rw [partitionScan_reads hscan s hs] at heq
    exact hself heq.symm

/-- **The partitions of a device** are found, each table read from its sector, if and only if there
is no table but the one in sector 0: the device has no sector, the table has no signature, or none
of its entries refers to another table within the device. -/
theorem partition_scan_iff (block : Block) : block.Scanned ↔ block.OneTable :=
  ⟨Block.Scanned.oneTable, Block.OneTable.scanned⟩

/-- A sector with the signature and two entries of a partition table. -/
def tableSector (e₀ e₁ : PartitionTableEntry) : Mem := fun i =>
  if i = 450 then e₀.type else if i = 454 then e₀.offset.toUInt8
  else if i = 458 then e₀.size.toUInt8 else if i = 466 then e₁.type
  else if i = 470 then e₁.offset.toUInt8 else if i = 474 then e₁.size.toUInt8
  else if i = 510 then 0x55 else if i = 511 then 0xaa else 0

/-- A kernel partition in sector 1, and an extended partition from sector 60 on, the table of which
has a file system in sector 61. -/
def nestedDevice : Block where
  name := "hda"
  size := 100
  sectors := fun s =>
    if s = 0 then tableSector ⟨0x20, 1, 10⟩ ⟨0x05, 60, 40⟩
    else if s = 60 then tableSector ⟨0x21, 1, 10⟩ ⟨0, 0, 0⟩
    else fun _ => 0

def nestedScan : Scan := (partitionScan nestedDevice 2).get (by decide +kernel)

def nestedFindings : List Finding :=
  (visit nestedDevice.expand 10 [.inr ⟨0, 0⟩]).get (by decide +kernel)

/-- The table in sector 60 is not read: a second kernel partition is registered in place of the file
system. -/
theorem nested_table_misread : ¬ ∃ memory st found, partitionScan nestedDevice memory = some st ∧
    Visits nestedDevice.expand [.inr ⟨0, 0⟩] found ∧
      st.registered.map Registration.extent = found.filterMap Finding.partition? := by
  rintro ⟨memory, st, found, hscan, hvisit, hsame⟩
  have hnested : partitionScan nestedDevice 2 = some nestedScan := (Option.some_get _).symm
  have hscan' := partitionScan_add hscan 2
  rw [Nat.add_comm, partitionScan_add hnested memory] at hscan'
  have hfindings : Visits nestedDevice.expand [.inr ⟨0, 0⟩] nestedFindings :=
    visit_sound (Option.some_get _).symm
  rw [← Option.some.inj hscan', hvisit.deterministic hfindings] at hsame
  exact absurd hsame (by decide +kernel)

end OsTools.Devices

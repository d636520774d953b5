import OsTools.Devices.Partition
import OsTools.Kernel.Bitmap
import OsTools.Lib.Except
/-!
# OsTools.Devices.Access

Reading and writing sectors (`devices/block.c`, the drivers of `devices/partition.c` and of
`devices/ide.c`). A block device has the operations of its driver, and those of a partition access
the block device that it is a part of, which may be a partition itself.

A device that is reached from another one by registering partitions lies within it (`Within`): its
sectors are the ones from some offset on, and they all pass the bounds checks on the way down.

## Proof shape

A partition of a partition is a device like any other, so the argument is by induction on
the layers: a sector that passes the check of the outer device is, with the offset added,
one that passes the check of the device below (`Within.passes`), because a partition is
registered only if it fits (`Registers.fits`). The addition cannot wrap for the same reason.
At the bottom `select_sector` has an assertion on the sector, which a disk of at most 1 GB
satisfies.

Two facts about a run follow from where its sectors are: what is read through a device
depends on its own range, and what is written stays in it. For two partitions that do not
overlap these say that neither sees the other.
-/

namespace OsTools.Devices

open Kernel

/-- The sectors of each disk. -/
abbrev Disks := Nat → BlockSector → Mem

/-- `struct block_operations`, applied to the `aux` of a device. -/
structure BlockOperations where
  read : BlockSector → Disks → Except Stop Mem
  write : BlockSector → Mem → Disks → Except Stop Disks

/-- `struct block`. -/
structure BlockDevice where
  name : String
  type : BlockType
  size : BlockSector
  ops : BlockOperations

/-! ### `block.c` -/

/-- `check_sector`. -/
def checkSector (block : BlockDevice) (sector : BlockSector) : Except Stop Unit :=
  if block.size ≤ sector then .error .panic else .ok ()

def blockRead (block : BlockDevice) (sector : BlockSector) (s : Disks) : Except Stop Mem := do
  checkSector block sector
  block.ops.read sector s

def blockWrite (block : BlockDevice) (sector : BlockSector) (buffer : Mem) (s : Disks) :
    Except Stop Disks := do
  checkSector block sector
  if block.type = .foreign then .error .assertion else block.ops.write sector buffer s

/-! ### `partition.c` -/

/-- `struct partition`. -/
structure Partition where
  /-- Underlying block device. -/
  block : BlockDevice
  /-- First sector within device. -/
  start : BlockSector

def partitionRead (p : Partition) (sector : BlockSector) (s : Disks) : Except Stop Mem :=
  blockRead p.block (p.start + sector) s

def partitionWrite (p : Partition) (sector : BlockSector) (buffer : Mem) (s : Disks) :
    Except Stop Disks :=
  blockWrite p.block (p.start + sector) buffer s

def partitionOperations (p : Partition) : BlockOperations := ⟨partitionRead p, partitionWrite p⟩

/-- The device that `found_partition` registers for a partition of `block`. -/
def BlockDevice.partition (block : BlockDevice) (r : Registration) : BlockDevice where
  name := r.name
  type := r.type
  size := r.size
  ops := partitionOperations ⟨block, r.start⟩

/-- A call of `found_partition` on `block` registers `r`. It looks at the name and the size of the
device only. -/
def Registers (block : BlockDevice) (r : Registration) : Prop :=
  ∃ (device : Block) (partType : UInt8) (start size : BlockSector) (partNr : Nat) (st : Scan),
    device.name = block.name ∧ device.size = block.size ∧
      (foundPartition device partType start size partNr st).registered = st.registered ++ [r]

/-! ### `ide.c` -/

/-- `select_sector`. -/
def selectSector (secNo : BlockSector) : Except Stop Unit :=
  if secNo.toNat < 2 ^ 28 then .ok () else .error .assertion

def ideRead (disk : Nat) (secNo : BlockSector) (s : Disks) : Except Stop Mem := do
  selectSector secNo
  .ok (s disk secNo)

/-- The disks after a sector has been written. -/
def Disks.put (s : Disks) (disk : Nat) (sector : BlockSector) (buffer : Mem) : Disks :=
  fun d k => if d = disk ∧ k = sector then buffer else s d k

def ideWrite (disk : Nat) (secNo : BlockSector) (buffer : Mem) (s : Disks) : Except Stop Disks := do
  selectSector secNo
  .ok (s.put disk secNo buffer)

/-- `identify_ata_device`: disks over 1 GB are ignored for safety. -/
def identifyAtaDevice (disk : Nat) (name : String) (capacity : BlockSector) : Option BlockDevice :=
  if 1024 * 1024 * 1024 / 512 ≤ capacity.toNat then none
  else some { name := name, type := .raw, size := capacity, ops := ⟨ideRead disk, ideWrite disk⟩ }

/-! ### One partition -/

variable {block root d : BlockDevice} {r r' : Registration} {sector target : BlockSector}
variable {disk offset : Nat} {buffer : Mem} {s s' t : Disks}

theorem checkSector_eq_ok : checkSector block sector = .ok () ↔ sector.toNat < block.size.toNat := by
  unfold checkSector
  by_cases hpast : block.size ≤ sector
  · rw [UInt32.le_iff_toNat_le] at hpast
    simp [UInt32.le_iff_toNat_le, hpast]
  · rw [if_neg hpast]
    rw [UInt32.le_iff_toNat_le] at hpast
    simp only [true_iff]
    omega

/-- A registered partition begins before the end of the device and does not reach past it. -/
theorem Registers.fits (h : Registers block r) :
    r.start.toNat < block.size.toNat ∧ r.start.toNat + r.size.toNat ≤ block.size.toNat := by
  obtain ⟨device, partType, start, size, partNr, st, -, hsize, hreg⟩ := h
  have hstart := start.toNat_lt
  have hlt := size.toNat_lt
  have hsum : (start + size).toNat = (start.toNat + size.toNat) % 2 ^ 32 := UInt32.toNat_add _ _
  rw [← hsize]
  unfold foundPartition at hreg
  dsimp only at hreg
  by_cases hpast : device.size ≤ start
  · rw [if_pos hpast, Scan.registered_printf] at hreg
    simp at hreg
  · by_cases hend : start + size < start ∨ device.size < start + size
    · rw [if_neg hpast, if_pos hend, Scan.registered_printf] at hreg
      simp at hreg
    · -- The sum has not wrapped, as it is not less than `start`.
      rw [if_neg hpast, if_neg hend] at hreg
      have hr := List.append_cancel_left hreg
      simp only [List.cons.injEq, and_true] at hr
      subst hr
      rw [UInt32.le_iff_toNat_le] at hpast
      rw [UInt32.lt_iff_toNat_lt, UInt32.lt_iff_toNat_lt, hsum] at hend
      dsimp only
      omega

/-- `found_partition` registers one partition or none. -/
theorem foundPartition_registered (device : Block) (partType : UInt8) (start size : BlockSector)
    (partNr : Nat) (st : Scan) :
    (foundPartition device partType start size partNr st).registered = st.registered ∨
      ∃ r, (foundPartition device partType start size partNr st).registered =
        st.registered ++ [r] := by
  unfold foundPartition
  dsimp only
  split
  · exact .inl rfl
  · split
    · exact .inl rfl
    · exact .inr ⟨_, rfl⟩

/-- **All that a scan registers** has been registered by `found_partition`. -/
theorem partitionScan_registers {device : Block} {memory : Nat} {st : Scan}
    (hname : device.name = block.name) (hsize : device.size = block.size)
    (h : partitionScan device memory = some st) : ∀ r ∈ st.registered, Registers block r := by
  have hkept : Kept device fun st => ∀ r ∈ st.registered, Registers block r :=
    { printf := fun _ _ hst => hst
      read := fun _ hst => hst
      found := by
        intro partType start size st hst r hr
        have hone := foundPartition_registered device partType start size (st.partNr + 1)
          { st with partNr := st.partNr + 1 }
        rcases hone with hnone | ⟨r', hr'⟩
        · rw [hnone] at hr
          exact hst r hr
        · rw [hr', List.mem_append, List.mem_singleton] at hr
          rcases hr with hr | rfl
          · exact hst r hr
          · exact ⟨device, partType, start, size, _, _, hname, hsize, hr'⟩ }
  exact hkept.partitionScan (by simp) h

/-- The sector of the device behind a sector of a partition. -/
theorem Registers.toNat_start_add (h : Registers block r) (hsector : sector.toNat < r.size.toNat) :
    (r.start + sector).toNat = r.start.toNat + sector.toNat := by
  have hfits := h.fits
  have hsize := block.size.toNat_lt
  have hsum : (r.start + sector).toNat = (r.start.toNat + sector.toNat) % 2 ^ 32 :=
    UInt32.toNat_add _ _
  rw [hsum]
  exact Nat.mod_eq_of_lt (by omega)

/-! ### Devices within devices -/

/-- The device is a partition of a partition … of `root`, and its sectors are those of `root` from
the offset on. -/
inductive Within (root : BlockDevice) : BlockDevice → Nat → Prop
  | self : Within root root 0
  | partition {d : BlockDevice} {offset : Nat} {r : Registration} (h : Within root d offset)
      (hr : Registers d r) : Within root (d.partition r) (offset + r.start.toNat)

theorem Within.fits (h : Within root d offset) : offset + d.size.toNat ≤ root.size.toNat := by
  induction h with
  | self => rw [Nat.zero_add]
  | partition _ hr ih =>
      have hfits := hr.fits
      show _ + _ + (Registration.size _).toNat ≤ _
      omega

theorem Within.trans {d' : BlockDevice} {offset' : Nat} (h : Within root d offset)
    (h' : Within d d' offset') : Within root d' (offset + offset') := by
  induction h' with
  | self => exact h
  | partition _ hr ih =>
      rw [← Nat.add_assoc]
      exact .partition ih hr

/-- What a device within `root` reads, and what it writes if it does. -/
structure Passes (root d : BlockDevice) (sector target : BlockSector) : Prop where
  read : ∀ s, d.ops.read sector s = root.ops.read target s
  write : ∀ buffer s s', d.ops.write sector buffer s = .ok s' → root.ops.write target buffer s = .ok s'

theorem blockRead_eq (h : sector.toNat < block.size.toNat) :
    blockRead block sector s = block.ops.read sector s := by
  unfold blockRead
  rw [checkSector_eq_ok.mpr h, ok_bind]

theorem blockWrite_eq_ok (h : blockWrite block sector buffer s = .ok s') :
    sector.toNat < block.size.toNat ∧ block.type ≠ .foreign ∧
      block.ops.write sector buffer s = .ok s' := by
  obtain ⟨u, hcheck, hwrite⟩ := bind_eq_ok h
  refine ⟨checkSector_eq_ok.mp hcheck, ?_⟩
  by_cases htype : block.type = .foreign
  · rw [if_pos htype] at hwrite
    cases hwrite
  · rw [if_neg htype] at hwrite
    exact ⟨htype, hwrite⟩

/-- Every access to a device within `root` is one to the sector of `root` that is `offset` further
on. The induction is on the layers, and each layer's check passes. -/
theorem Within.passes (h : Within root d offset) (hsector : sector.toNat < d.size.toNat) :
    ∃ target, target.toNat = offset + sector.toNat ∧ Passes root d sector target := by
  induction h generalizing sector with
  | self => exact ⟨sector, by rw [Nat.zero_add], fun _ => rfl, fun _ _ _ hwrite => hwrite⟩
  | @partition d offset r _ hr ih =>
      have hsector' : sector.toNat < r.size.toNat := hsector
      have htarget := hr.toNat_start_add hsector'
      have hfits := hr.fits
      have hinner : (r.start + sector).toNat < d.size.toNat := by omega
      obtain ⟨target, heq, hpasses⟩ := ih hinner
      refine ⟨target, by omega, fun s => ?_, fun buffer s s' hwrite => ?_⟩
      · have hread : (d.partition r).ops.read sector s = blockRead d (r.start + sector) s := rfl
        rw [hread, blockRead_eq hinner]
        exact hpasses.read s
      · exact hpasses.write buffer s s' (blockWrite_eq_ok hwrite).2.2

/-! ### Runs of accesses -/

/-- A call of `block_read` or `block_write`. -/
inductive Access
  | read (block : BlockDevice) (sector : BlockSector)
  | write (block : BlockDevice) (sector : BlockSector) (buffer : Mem)

namespace Access

def device : Access → BlockDevice
  | read block _ => block
  | write block _ _ => block

def exec (s : Disks) : Access → Except Stop Disks
  | read block sector => do
      let _ ← blockRead block sector s
      .ok s
  | write block sector buffer => blockWrite block sector buffer s

end Access

/-- The disks after a run of accesses, if all of them return. -/
def runAccesses (s : Disks) (accesses : List Access) : Except Stop Disks :=
  accesses.foldlM Access.exec s

/-- The disks agree on the sectors of `disk` from `lo` up to `hi`. -/
def SameSectors (s t : Disks) (disk lo hi : Nat) : Prop :=
  ∀ k : BlockSector, lo ≤ k.toNat → k.toNat < hi → s disk k = t disk k

/-- `root` is a whole disk. -/
def IsDisk (root : BlockDevice) (disk : Nat) : Prop :=
  ∃ name capacity, identifyAtaDevice disk name capacity = some root

/-- `select_sector` takes every sector of a disk that is not ignored. -/
theorem IsDisk.ops (h : IsDisk root disk) (hsector : sector.toNat < root.size.toNat) :
    (∀ s, root.ops.read sector s = .ok (s disk sector)) ∧
      ∀ buffer s, root.ops.write sector buffer s = .ok (s.put disk sector buffer) := by
  obtain ⟨name, capacity, hidentify⟩ := h
  unfold identifyAtaDevice at hidentify
  by_cases hlarge : 1024 * 1024 * 1024 / 512 ≤ capacity.toNat
  · rw [if_pos hlarge] at hidentify
    cases hidentify
  · rw [if_neg hlarge] at hidentify
    obtain rfl := Option.some.inj hidentify
    have hselect : selectSector sector = .ok () := by
      unfold selectSector
      rw [if_pos]
      have hsector' : sector.toNat < capacity.toNat := hsector
      omega
    refine ⟨fun s => ?_, fun buffer s => ?_⟩
    · show ideRead disk sector s = _
      unfold ideRead
      rw [hselect, ok_bind]
    · show ideWrite disk sector buffer s = _
      unfold ideWrite
      rw [hselect, ok_bind]

/-- What is read through a device depends on its own sectors only. -/
theorem Within.read_same (h : Within root d offset) (hroot : IsDisk root disk)
    (hsame : SameSectors s t disk offset (offset + d.size.toNat)) :
    blockRead d sector s = blockRead d sector t := by
  by_cases hsector : sector.toNat < d.size.toNat
  · obtain ⟨target, heq, hpasses⟩ := h.passes hsector
    have hfits := h.fits
    have htarget : target.toNat < root.size.toNat := by omega
    have hread := (hroot.ops htarget).1
    rw [blockRead_eq hsector, blockRead_eq hsector, hpasses.read, hpasses.read, hread, hread,
      hsame target (by omega) (by omega)]
  · have hcheck : checkSector d sector = .error .panic := by
      unfold checkSector
      rw [if_pos]
      rw [UInt32.le_iff_toNat_le]
      omega
    unfold blockRead
    rw [hcheck]
    rfl

/-- An access through a device leaves all sectors as they are that are not its own. -/
theorem Within.exec_same {access : Access} {lo hi : Nat} (h : Within root access.device offset)
    (hroot : IsDisk root disk) (hexec : access.exec s = .ok s')
    (hapart : offset + access.device.size.toNat ≤ lo ∨ hi ≤ offset) :
    SameSectors s' s disk lo hi := by
  intro k hlo hhi
  cases access with
  | read block sector =>
      obtain ⟨m, -, hret⟩ := bind_eq_ok hexec
      cases hret
      rfl
  | write block sector buffer =>
      obtain ⟨hsector, -, hwrite⟩ := blockWrite_eq_ok hexec
      obtain ⟨target, heq, hpasses⟩ := h.passes hsector
      have hfits := h.fits
      have hblock : (Access.write block sector buffer).device = block := rfl
      rw [hblock] at hapart hfits
      have hput := hpasses.write buffer s s' hwrite
      have htarget : target.toNat < root.size.toNat := by omega
      rw [(hroot.ops htarget).2] at hput
      cases hput
      have hne : k ≠ target := by
        intro hk
        subst hk
        omega
      simp [Disks.put, hne]

/-- So does a run of accesses through devices that lie within one. -/
theorem Within.run_same {accesses : List Access} {lo hi : Nat} (h : Within root d offset)
    (hroot : IsDisk root disk) (hin : ∀ access ∈ accesses, ∃ o, Within d access.device o)
    (hrun : runAccesses s accesses = .ok s') (hapart : offset + d.size.toNat ≤ lo ∨ hi ≤ offset) :
    SameSectors s' s disk lo hi := by
  induction accesses generalizing s with
  | nil =>
      cases hrun
      exact fun _ _ _ => rfl
  | cons access accesses ih =>
      unfold runAccesses at hrun
      rw [List.foldlM_cons] at hrun
      obtain ⟨s₁, hexec, hrest⟩ := bind_eq_ok hrun
      obtain ⟨o, hwithin⟩ := hin access List.mem_cons_self
      have hfits := hwithin.fits
      have hstep : SameSectors s₁ s disk lo hi :=
        (h.trans hwithin).exec_same hroot hexec (by omega)
      have hlater := ih (fun a ha => hin a (List.mem_cons_of_mem _ ha)) hrest
      intro k hlo hhi
      rw [hlater k hlo hhi, hstep k hlo hhi]

/-! ### Partitions stay within their bounds -/

/-- The ranges of two partitions of a device do not overlap. -/
def Registration.Apart (r r' : Registration) : Prop :=
  r.start.toNat + r.size.toNat ≤ r'.start.toNat ∨ r'.start.toNat + r'.size.toNat ≤ r.start.toNat

/-- **Partitions stay within their bounds.** Where `found_partition` has registered a partition of
a device, each sector that passes its `check_sector` is read and written at a sector of the device
within the range of the partition, which the sum has not wrapped to and which passes the
`check_sector` of the device. Two partitions whose ranges do not overlap have no sector in common;
and on a disk, what is done through one of them and the partitions within it leaves what can be read
through the other and the partitions within that one, which depends on its own range only. -/
theorem partition_access_within_bounds (hr : Registers block r) :
    (∀ sector, checkSector (block.partition r) sector = .ok () →
      ∃ target : BlockSector, target = r.start + sector ∧
        target.toNat = r.start.toNat + sector.toNat ∧
        r.start.toNat ≤ target.toNat ∧ target.toNat < r.start.toNat + r.size.toNat ∧
        checkSector block target = .ok () ∧
        (∀ s, partitionRead ⟨block, r.start⟩ sector s = block.ops.read target s) ∧
        ∀ buffer s, block.type ≠ .foreign →
          partitionWrite ⟨block, r.start⟩ sector buffer s = block.ops.write target buffer s) ∧
    ∀ r', Registers block r' → r.Apart r' →
      (∀ i j, checkSector (block.partition r) i = .ok () →
        checkSector (block.partition r') j = .ok () → r.start + i ≠ r'.start + j) ∧
      ∀ disk root base, IsDisk root disk → Within root block base →
        (∀ accesses s s', (∀ a ∈ accesses, ∃ o, Within (block.partition r) a.device o) →
          runAccesses s accesses = .ok s' →
            ∀ d o sector, Within (block.partition r') d o →
              blockRead d sector s' = blockRead d sector s) ∧
        ∀ s t, SameSectors s t disk (base + r.start.toNat) (base + r.start.toNat + r.size.toNat) →
          ∀ d o sector, Within (block.partition r) d o →
            blockRead d sector s = blockRead d sector t := by
  have hfits := hr.fits
  refine ⟨fun sector hcheck => ?_, fun r' hr' hapart => ⟨fun i j hi hj => ?_, ?_⟩⟩
  · have hsector : sector.toNat < r.size.toNat := checkSector_eq_ok.mp hcheck
    have htarget := hr.toNat_start_add hsector
    have hinner : (r.start + sector).toNat < block.size.toNat := by omega
    refine ⟨r.start + sector, rfl, htarget, by omega, by omega, checkSector_eq_ok.mpr hinner,
      fun s => blockRead_eq hinner, fun buffer s htype => ?_⟩
    unfold partitionWrite blockWrite
    rw [checkSector_eq_ok.mpr hinner, ok_bind, if_neg htype]
  · have hi' : i.toNat < r.size.toNat := checkSector_eq_ok.mp hi
    have hj' : j.toNat < r'.size.toNat := checkSector_eq_ok.mp hj
    have htarget := hr.toNat_start_add hi'
    have htarget' := hr'.toNat_start_add hj'
    unfold Registration.Apart at hapart
    intro hsame
    have := congrArg UInt32.toNat hsame
    omega
  · intro disk root base hroot hblock
    have hp : Within root (block.partition r) (base + r.start.toNat) := hblock.partition hr
    have hq : Within root (block.partition r') (base + r'.start.toNat) := hblock.partition hr'
    have hsize : (block.partition r).size = r.size := rfl
    have hsize' : (block.partition r').size = r'.size := rfl
    unfold Registration.Apart at hapart
    refine ⟨fun accesses s s' hin hrun d o sector hd => ?_, fun s t hsame d o sector hd => ?_⟩
    · have hfits' := hd.fits
      -- the accesses stay within the sectors of the one, the read within those of the other
      have hkept : SameSectors s' s disk (base + r'.start.toNat + o)
          (base + r'.start.toNat + o + d.size.toNat) := by
        rw [hsize'] at hfits'
        exact hp.run_same hroot hin hrun (by rw [hsize]; omega)
      exact (hq.trans hd).read_same hroot hkept
    · have hfits' := hd.fits
      rw [hsize] at hfits'
      refine (hp.trans hd).read_same hroot fun k hlo hhi => hsame k (by omega) (by omega)

/-- A disk of 100 sectors. -/
def smallDisk : BlockDevice where
  name := "hda"
  type := .raw
  size := 100
  ops := ⟨ideRead 0, ideWrite 0⟩

/-- Its kernel partition. -/
def kernelPartition : Registration := ⟨"hda1", .kernel, 10, 1⟩

/-- Its file system. -/
def filesysPartition : Registration := ⟨"hda2", .filesys, 89, 11⟩

/-- The last sector of the kernel partition is the one before the file system, and what is written
to it cannot be read there. -/
theorem partition_access_within_bounds_disk :
    (∃ target : BlockSector, target.toNat = 10 ∧ checkSector smallDisk target = .ok ()) ∧
      ∀ buffer s s', runAccesses s [.write (smallDisk.partition kernelPartition) 9 buffer] = .ok s' →
        blockRead (smallDisk.partition filesysPartition) 0 s' =
          blockRead (smallDisk.partition filesysPartition) 0 s := by
  have hkernel : Registers smallDisk kernelPartition :=
    ⟨⟨"hda", 100, fun _ _ => 0⟩, 0x20, 1, 10, 1, ⟨0, [], [], []⟩, rfl, rfl, by decide⟩
  have hfilesys : Registers smallDisk filesysPartition :=
    ⟨⟨"hda", 100, fun _ _ => 0⟩, 0x21, 11, 89, 2, ⟨0, [], [], []⟩, rfl, rfl, by decide⟩
  obtain ⟨htarget, hapart⟩ := partition_access_within_bounds hkernel
  constructor
  · obtain ⟨target, -, hnat, -, -, hcheck, -⟩ := htarget 9 (by decide)
    exact ⟨target, hnat, hcheck⟩
  · intro buffer s s' hrun
    have hdisk : IsDisk smallDisk 0 := ⟨"hda", 100, rfl⟩
    obtain ⟨-, hruns⟩ := hapart filesysPartition hfilesys (Or.inl (by decide))
    refine (hruns 0 smallDisk 0 hdisk .self).1 _ s s' ?_ hrun _ 0 0 .self
    intro a ha
    rw [List.mem_singleton.mp ha]
    exact ⟨0, .self⟩

end OsTools.Devices

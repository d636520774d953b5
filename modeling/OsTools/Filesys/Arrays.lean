import Mathlib.Logic.Function.Basic
import OsTools.Filesys.Alloc
/-!
# OsTools.Filesys.Arrays

Inodes as byte arrays. `Arrays` is what `inode_read_at` and `inode_write_at` are
for: an array of fixed length for every inode, from which a call reads, or into
which it writes, what lies within the array. `inode_byte_arrays` says that the
two functions do exactly this on inodes that share no data sector, whatever is
called in which order, and that `inode_create` makes an array of zeros.

## Proof shape

The arrays are an abstract machine with the same calls, and the proof is a simulation with the
relation `Represents`: every open inode holds its array. A read or a write of one inode keeps the
relation for all the others because they share no byte of the device (`place_ne`). A sequence of
calls is by induction over the calls.

`inode_create` is apart from it: the sectors that it gets were free (`Fs.freeMapAllocate_ok`), and
its loop clears them, whatever was on the device.
-/

namespace OsTools.Filesys

open OsTools.Kernel

/-! ### The arrays -/

/-- Arrays of bytes by the address of the inode. -/
structure Arrays where
  length : Nat → Nat
  bytes : Nat → Mem

/-- A call of `inode_read_at` or `inode_write_at`. -/
inductive Access
  | read (id : Nat) (buffer : Mem) (size offset : Nat)
  | write (id : Nat) (buffer : Mem) (size offset : Nat)

namespace Access

/-- The inode a call is on. -/
def id : Access → Nat
  | read id _ _ _ | write id _ _ _ => id

end Access

namespace Arrays

/-- The number of bytes a call transfers. -/
def count (t : Arrays) (id size offset : Nat) : Nat := min size (t.length id - offset)

/-- A call: the arrays, the buffer and the number of bytes transferred. -/
def access (t : Arrays) : Access → Arrays × Mem × Nat
  | .read id buffer size offset =>
      let n := t.count id size offset
      (t, fun k => if k < n then t.bytes id (offset + k) else buffer k, n)
  | .write id buffer size offset =>
      let n := t.count id size offset
      let bytes := fun k => if offset ≤ k ∧ k < offset + n then buffer (k - offset) else t.bytes id k
      ({ t with bytes := Function.update t.bytes id bytes }, buffer, n)

/-- A sequence of calls and what each returns. -/
def accesses (t : Arrays) : List Access → Arrays × List (Mem × Nat)
  | [] => (t, [])
  | a :: as =>
      let (t, r) := t.access a
      let (t, rs) := t.accesses as
      (t, r :: rs)

end Arrays

namespace Fs

/-- A call on the file system. -/
def access (s : Fs) : Access → Except Stop (Fs × Mem × Nat)
  | .read id buffer size offset => s.inodeReadAt id buffer size offset
  | .write id buffer size offset => do
      let (s, n) ← s.inodeWriteAt id buffer size offset
      .ok (s, buffer, n)

/-- A sequence of calls on the file system. -/
def accesses (s : Fs) : List Access → Except Stop (Fs × List (Mem × Nat))
  | [] => .ok (s, [])
  | a :: as => do
      let (s, r) ← s.access a
      let (s, rs) ← s.accesses as
      .ok (s, r :: rs)

end Fs

/-! ### The inodes as arrays -/

/-- The open inodes have their data on the device and each its own sectors,
writes are allowed, and memory does not run out. -/
structure Separate (s : Fs) : Prop where
  mallocs : s.mallocs = []
  ids : (s.openInodes.map Inode.id).Nodup
  onDevice : ∀ i ∈ s.openInodes, Fs.OnDevice s.device i.data
  allowed : ∀ i ∈ s.openInodes, i.denyWriteCnt = 0
  disjoint : ∀ i ∈ s.openInodes, ∀ j ∈ s.openInodes, i.id ≠ j.id →
    ∀ k < i.data.length.toNat, ∀ l < j.data.length.toNat,
      i.data.start + k / BLOCK_SECTOR_SIZE ≠ j.data.start + l / BLOCK_SECTOR_SIZE

/-- Every open inode holds its array. -/
def Represents (s : Fs) (t : Arrays) : Prop :=
  ∀ i ∈ s.openInodes, t.length i.id = i.data.length.toNat ∧
    ∀ k < i.data.length.toNat, Fs.data s.device i.data k = t.bytes i.id k

namespace Separate

variable {s : Fs} {t : Arrays}

theorem inode (h : Separate s) {i : Inode} (hi : i ∈ s.openInodes) : s.inode i.id = .ok i := by
  unfold Fs.inode
  cases hf : s.openInodes.find? (fun j => j.id = i.id) with
  | none =>
      have hne := List.find?_eq_none.mp hf i hi
      simp at hne
  | some j =>
      have hid : j.id = i.id := by
        have := List.find?_some hf
        simpa using this
      rw [eq_of_nodup_map h.ids (List.mem_of_find?_eq_some hf) hi hid]

/-- Bytes of different inodes are different bytes of the device. -/
theorem place_ne (h : Separate s) {i j : Inode} (hi : i ∈ s.openInodes) (hj : j ∈ s.openInodes)
    (hne : i.id ≠ j.id) {k l : Nat} (hk : k < i.data.length.toNat) (hl : l < j.data.length.toNat) :
    i.data.start * BLOCK_SECTOR_SIZE + k ≠ j.data.start * BLOCK_SECTOR_SIZE + l := by
  intro heq
  apply h.disjoint i hi j hj hne k hk l hl
  unfold BLOCK_SECTOR_SIZE at *
  omega

theorem setMallocs (h : Separate s) : Separate { s with mallocs := [] } :=
  ⟨rfl, h.ids, h.onDevice, h.allowed, h.disjoint⟩

theorem count_eq (hr : Represents s t) {i : Inode} (hi : i ∈ s.openInodes) (size offset : Nat) :
    Fs.transfer i.data.length size offset = t.count i.id size offset := by
  unfold Fs.transfer Arrays.count
  rw [(hr i hi).1]

/-- One call of `inode_read_at`. -/
theorem read (h : Separate s) (hr : Represents s t) {i : Inode} (hi : i ∈ s.openInodes)
    (buffer : Mem) (size offset : Nat) :
    s.access (.read i.id buffer size offset) =
      .ok (s, (t.access (.read i.id buffer size offset)).2) := by
  obtain ⟨n, mallocs, hread, htransfers⟩ := Fs.inodeReadAt_spec (h.inode hi) (h.onDevice i hi)
    buffer size offset
  obtain ⟨hm, hn⟩ := htransfers.all h.mallocs
  rw [count_eq hr hi] at hn
  have hstate : ({ s with mallocs } : Fs) = s := by
    rw [hm, ← h.mallocs]
  have hbuffer : buffer.blit 0 n (fun k => Fs.data s.device i.data (offset + k)) =
      fun k => if k < n then t.bytes i.id (offset + k) else buffer k := by
    funext k
    unfold Mem.blit
    by_cases hk : k < n
    · have hlt : offset + k < i.data.length.toNat := by
        rw [hn] at hk
        unfold Arrays.count at hk
        rw [(hr i hi).1] at hk
        omega
      rw [if_pos hk, if_pos (by omega)]
      exact (hr i hi).2 _ hlt
    · rw [if_neg hk, if_neg (by omega)]
  unfold Fs.access Arrays.access
  dsimp only
  rw [hread, hstate, hbuffer, hn]

/-- One call of `inode_write_at`. The bytes that are written are those of the abstract array,
in the same range; the other inodes keep their bytes, because their sectors are others. -/
theorem write (h : Separate s) (hr : Represents s t) {i : Inode} (hi : i ∈ s.openInodes)
    (buffer : Mem) (size offset : Nat) : ∃ s',
      s.access (.write i.id buffer size offset) =
        .ok (s', (t.access (.write i.id buffer size offset)).2) ∧
      s'.openInodes = s.openInodes ∧ Separate s' ∧
      Represents s' (t.access (.write i.id buffer size offset)).1 := by
  obtain ⟨n, mallocs, hwrite, htransfers⟩ := Fs.inodeWriteAt_spec (h.inode hi) (h.onDevice i hi)
    (h.allowed i hi) buffer size offset
  obtain ⟨hm, hn⟩ := htransfers.all h.mallocs
  rw [count_eq hr hi] at hn
  have hle : n ≤ i.data.length.toNat - offset := by
    rw [hn]
    unfold Arrays.count
    rw [(hr i hi).1]
    omega
  refine ⟨s.wrote (i.data.start * BLOCK_SECTOR_SIZE + offset) n buffer mallocs, ?_, rfl,
    ⟨hm, h.ids, fun j hj => ⟨(h.onDevice j hj).size_lt, (h.onDevice j hj).fits⟩, h.allowed,
      h.disjoint⟩, fun j hj => ⟨(hr j hj).1, fun k hk => ?_⟩⟩
  · unfold Fs.access Arrays.access
    dsimp only
    rw [hwrite, ok_bind, hn]
  · unfold Fs.wrote Fs.data Arrays.access
    dsimp only
    rw [← hn]
    by_cases hid : j.id = i.id
    · have hji : j = i := eq_of_nodup_map h.ids hj hi hid
      rw [hji, Function.update_self]
      rw [hji] at hk
      unfold Mem.blit
      by_cases hin : offset ≤ k ∧ k < offset + n
      · rw [if_pos hin, if_pos (by omega)]
        exact congrArg buffer (by omega)
      · rw [if_neg hin, if_neg (by omega)]
        exact (hr i hi).2 k hk
    · rw [Function.update_of_ne hid]
      refine Eq.trans (Mem.blit_of_outside ?_) ((hr j hj).2 k hk)
      -- byte `k` of `j` would be a byte of `i`
      by_contra hin
      have hlt : j.data.start * BLOCK_SECTOR_SIZE + k - i.data.start * BLOCK_SECTOR_SIZE <
          i.data.length.toNat := by omega
      exact h.place_ne hj hi hid hk hlt (by omega)

/-- One call. -/
theorem access (h : Separate s) (hr : Represents s t) (a : Access)
    (ha : ∃ i ∈ s.openInodes, i.id = a.id) : ∃ s',
      s.access a = .ok (s', (t.access a).2) ∧ s'.openInodes = s.openInodes ∧ Separate s' ∧
        Represents s' (t.access a).1 := by
  obtain ⟨i, hi, hid⟩ := ha
  cases a with
  | read id buffer size offset =>
      cases hid
      exact ⟨s, h.read hr hi buffer size offset, rfl, h, hr⟩
  | write id buffer size offset =>
      cases hid
      exact h.write hr hi buffer size offset

/-- A sequence of calls. -/
theorem accesses (h : Separate s) (hr : Represents s t) (as : List Access)
    (has : ∀ a ∈ as, ∃ i ∈ s.openInodes, i.id = a.id) : ∃ s',
      s.accesses as = .ok (s', (t.accesses as).2) ∧ Represents s' (t.accesses as).1 := by
  induction as generalizing s t with
  | nil => exact ⟨s, rfl, hr⟩
  | cons a as ih =>
      obtain ⟨s₁, hstep, hopen, hsep, hrep⟩ := h.access hr a (has a List.mem_cons_self)
      obtain ⟨s', hrest, hrep'⟩ := ih hsep hrep fun b hb => by
        rw [hopen]
        exact has b (List.mem_cons_of_mem _ hb)
      refine ⟨s', ?_, hrep'⟩
      unfold Fs.accesses
      rw [hstep, ok_bind]
      dsimp only
      rw [hrest]
      rfl

end Separate

/-! ### A new inode -/

theorem Fs.blockWrite_ok {s s' : Fs} {sector : Nat} {buffer : Mem}
    (h : s.blockWrite sector buffer = .ok s') :
    s' = s.wrote (sector * BLOCK_SECTOR_SIZE) BLOCK_SECTOR_SIZE buffer s.mallocs := by
  by_cases hlt : sector < s.device.size
  · rw [Fs.blockWrite_eq hlt] at h
    cases h
    rfl
  · unfold Fs.blockWrite Block.write at h
    rw [if_neg hlt] at h
    cases h

theorem Fs.zeroLoop_ok {n : Nat} {s s' : Fs} {sector : Nat} (h : Fs.zeroLoop n s sector = .ok s') :
    s' = s.wrote (sector * BLOCK_SECTOR_SIZE) (n * BLOCK_SECTOR_SIZE) (fun _ => 0) s.mallocs := by
  induction n generalizing s sector with
  | zero =>
      cases h
      rw [Nat.zero_mul, Fs.wrote_zero]
  | succ n ih =>
      unfold Fs.zeroLoop at h
      obtain ⟨s₁, hwrite, hloop⟩ := bind_eq_ok h
      rw [ih hloop, Fs.blockWrite_ok hwrite, Nat.add_mul, Nat.one_mul, Fs.wrote_wrote, Nat.add_mul,
        Nat.one_mul, Nat.add_comm BLOCK_SECTOR_SIZE]
      rfl

/-- The sectors that `free_map_allocate` returns were free. -/
theorem Fs.freeMapAllocate_ok {s s' : Fs} {cnt start : Nat} (hfits : s.freeMap.Fits)
    (h : s.freeMapAllocate cnt = .ok (s', some start)) : s.freeMap.First 0 cnt false start := by
  obtain ⟨b, r, hscan, -, -, hsome⟩ := Bitmap.scanAndFlip_spec hfits.lt cnt
  unfold Fs.freeMapAllocate at h
  rw [hscan, ok_bind] at h
  dsimp only at h
  cases r with
  | none => cases h
  | some sector =>
      suffices hsector : sector = start by
        rw [← hsector]
        exact (hsome sector rfl).1
      split at h
      · rename_i sector' file heq _
        cases heq
        obtain ⟨⟨s₁, ok⟩, -, hrest⟩ := bind_eq_ok h
        cases ok with
        | true =>
            cases hrest
            rfl
        | false =>
            obtain ⟨_, -, hrest⟩ := bind_eq_ok hrest
            cases hrest
      · cases h
        rfl

/-- A new inode has the length asked for, and its bytes are zero. The loop of `inode_create`
writes zeros to each of the sectors that were allocated, and the sector of the inode is not
one of them, since it was marked before. -/
theorem Fs.inodeCreate_zero {s s' : Fs} {x : Nat} {length : Int} (hfits : s.freeMap.Fits)
    (hx : s.freeMap.bit x = true) (h₁ : length < 2 ^ 31)
    (h : s.inodeCreate x length = .ok (s', true)) :
    (diskInode s'.device x).length = length ∧
      ∀ k < length.toNat, Fs.data s'.device (diskInode s'.device x) k = 0 := by
  unfold Fs.inodeCreate at h
  by_cases h₀ : length < 0
  · rw [if_pos h₀] at h
    cases h
  rw [if_neg h₀] at h
  obtain ⟨ok, mallocs, hmalloc, -⟩ := Fs.malloc_cases s
  rw [hmalloc] at h
  cases ok with
  | false => cases h
  | true =>
      dsimp only at h
      obtain ⟨⟨s₁, r⟩, halloc, hrest⟩ := bind_eq_ok h
      cases r with
      | none => cases hrest
      | some start =>
          dsimp only at hrest
          obtain ⟨s₂, hheader, hrest⟩ := bind_eq_ok hrest
          obtain ⟨s₃, hzero, hrest⟩ := bind_eq_ok hrest
          cases hrest
          have hfirst := Fs.freeMapAllocate_ok (s := { s with mallocs }) hfits halloc
          have hxout : ¬ (start ≤ x ∧ x < start + bytesToSectors length) := by
            intro hb
            have hfree := hfirst.group x hb.1 hb.2
            rw [show ({ s with mallocs } : Fs).freeMap.bit x = s.freeMap.bit x from rfl, hx] at hfree
            cases hfree
          have hinode : diskInode s'.device x = ⟨start, length, INODE_MAGIC⟩ := by
            have hstart : start < 2 ^ 32 := by
              have hle := hfirst.le
              unfold Bitmap.Fits at hfits
              dsimp only at hle
              omega
            refine Eq.trans (decode_congr fun i hi => ?_)
              (@decode_encode ⟨start, length, INODE_MAGIC⟩ hstart (Int.not_lt.mp h₀) h₁
                (show INODE_MAGIC < 2 ^ 32 by decide))
            rw [Fs.zeroLoop_ok hzero, Fs.blockWrite_ok hheader]
            unfold Fs.wrote
            dsimp only
            unfold BLOCK_SECTOR_SIZE
            rw [Mem.blit_of_outside (by omega), Mem.blit_of_inside (by omega)]
          refine ⟨by rw [hinode], fun k hk => ?_⟩
          have hle := (bytesToSectors_spec (Int.not_lt.mp h₀) h₁).1
          rw [hinode, Fs.zeroLoop_ok hzero]
          unfold Fs.data Fs.wrote
          dsimp only
          rw [Mem.blit_of_inside (Nat.lt_of_lt_of_le hk hle)]

/-- **Inodes are byte arrays.** `inode_create` in a sector in use makes an inode
of the length asked for whose bytes are all zero; and on open inodes that share
no data sector, every sequence of calls returns what it returns on the arrays
the inodes hold, and leaves the inodes with the arrays it leaves. -/
theorem inode_byte_arrays :
    (∀ (s s' : Fs) (x : Nat) (length : Int), s.freeMap.Fits → s.freeMap.bit x = true →
      length < 2 ^ 31 → s.inodeCreate x length = .ok (s', true) →
        (diskInode s'.device x).length = length ∧
          ∀ k < length.toNat, Fs.data s'.device (diskInode s'.device x) k = 0) ∧
    (∀ (s : Fs) (t : Arrays) (as : List Access), Separate s → Represents s t →
      (∀ a ∈ as, ∃ i ∈ s.openInodes, i.id = a.id) →
        ∃ s', s.accesses as = .ok (s', (t.accesses as).2) ∧ Represents s' (t.accesses as).1) :=
  ⟨fun _ _ _ _ hfits hx hlength h => Fs.inodeCreate_zero hfits hx hlength h,
    fun _ _ as h hr has => h.accesses hr as has⟩

/-- A device of eight sectors, the first two in use, with two open inodes. -/
def twoInodes : Fs where
  device := ⟨fun _ => 0, 8⟩
  openInodes := [⟨0, 0, 1, false, 0, ⟨2, 700, INODE_MAGIC⟩⟩, ⟨1, 1, 2, false, 0, ⟨4, 3, INODE_MAGIC⟩⟩]
  nextId := 2
  freeMap := ⟨8, fun k => if k = 0 then 3 else 0⟩
  freeMapFile := none
  mallocs := []

theorem twoInodes_cases {i : Inode} (hi : i ∈ twoInodes.openInodes) :
    i = ⟨0, 0, 1, false, 0, ⟨2, 700, INODE_MAGIC⟩⟩ ∨ i = ⟨1, 1, 2, false, 0, ⟨4, 3, INODE_MAGIC⟩⟩ := by
  simpa [twoInodes] using hi

theorem twoInodes_separate : Separate twoInodes := by
  refine ⟨rfl, by decide, fun i hi => ?_, by decide, fun i hi j hj hne k hk l hl => ?_⟩
  · rcases twoInodes_cases hi with rfl | rfl
    · exact ⟨by decide, by decide⟩
    · exact ⟨by decide, by decide⟩
  · unfold BLOCK_SECTOR_SIZE
    rcases twoInodes_cases hi with rfl | rfl <;> rcases twoInodes_cases hj with rfl | rfl
    · exact absurd rfl hne
    · change k < 700 at hk
      change 2 + k / 512 ≠ 4 + l / 512
      omega
    · change l < 700 at hl
      change 4 + k / 512 ≠ 2 + l / 512
      omega
    · exact absurd rfl hne

theorem inode_byte_arrays_twoInodes :
    (∃ s', twoInodes.inodeCreate 1 700 = .ok (s', true) ∧
      ∀ k < 700, Fs.data s'.device (diskInode s'.device 1) k = 0) ∧
    (∃ s', twoInodes.accesses [.write 0 (fun _ => 7) 600 200, .read 1 (fun _ => 1) 9 2] =
      .ok (s', [(fun _ => 7, 500), (fun k => if k < 1 then 0 else 1, 1)])) := by
  refine ⟨?_, ?_⟩
  · have hcreate : ∃ s', twoInodes.inodeCreate 1 700 = .ok (s', true) := ⟨_, rfl⟩
    obtain ⟨s', hs'⟩ := hcreate
    exact ⟨s', hs', (inode_byte_arrays.1 twoInodes s' 1 700 (show 8 + 31 < 2 ^ 32 by decide) (by decide)
      (by decide) hs').2⟩
  · have hrep : Represents twoInodes ⟨fun id => if id = 0 then 700 else 3, fun _ _ => 0⟩ := by
      intro i hi
      rcases twoInodes_cases hi with rfl | rfl
      · exact ⟨rfl, fun _ _ => rfl⟩
      · exact ⟨rfl, fun _ _ => rfl⟩
    obtain ⟨s', hs', -⟩ := inode_byte_arrays.2 twoInodes _
      [.write 0 (fun _ => 7) 600 200, .read 1 (fun _ => 1) 9 2] twoInodes_separate hrep (by decide)
    exact ⟨s', hs'⟩

end OsTools.Filesys

import OsTools.Filesys.Handles
/-!
# OsTools.Filesys.Directory

Directories (`filesys/directory.c`): a file of entries of 20 bytes, each the
sector of an inode, a name and whether the entry is in use. Looking a name up and
looking for a free entry are scans that end at the first short read.

A `struct dir_entry` is its bytes. A C string is the list of its characters,
none of which is zero. The number of passes of a scan is bounded by the length of
the directory.

`Entry.content` reads an entry back as a name and a sector. It is the view in which the directory
is a map, and `fill_spec` says that what `dir_add` writes has the content it should have, for any
garbage in the rest of the entry. A name in use must end within its array (`Terminated`), since
`strcmp` would read on.
-/

namespace OsTools.Filesys

open OsTools.Kernel

/-- The characters of a C string, without the null at its end. -/
abbrev Name := List UInt8

/-- `NAME_MAX`. -/
def NAME_MAX : Nat := 14

/-- `sizeof (struct dir_entry)`: the sector, `NAME_MAX + 1` characters, the flag. -/
def ENTRY_SIZE : Nat := 20

namespace Entry

/-- `e.inode_sector`. -/
def inodeSector (e : Mem) : Nat := e.load 0 4

/-- `e.in_use`. -/
def inUse (e : Mem) : Bool := e 19 ≠ 0

/-- `!strcmp (name, e.name)`, where `e.name` is the string at `a`. -/
def sameName : Name → Mem → Nat → Bool
  | [], e, a => e a = 0
  | c :: name, e, a => e a = c && sameName name e (a + 1)

/-- At most `n` characters of the string at `a`. -/
def string (e : Mem) (a : Nat) : Nat → Name
  | 0 => []
  | n + 1 => if e a = 0 then [] else e a :: string e (a + 1) n

/-- `strlcpy` of `name` to the address `a`, which has room for `size` bytes. -/
def strlcpy (e : Mem) (a : Nat) (name : Name) (size : Nat) : Mem :=
  let n := min name.length (size - 1)
  Mem.blit (Mem.blit e a n fun i => name.getD i 0) (a + n) 1 fun _ => 0

/-- `e.in_use = in_use`. -/
def setInUse (e : Mem) (inUse : Bool) : Mem := e.blit 19 1 fun _ => if inUse then 1 else 0

/-- The entry that `dir_add` writes, over what is in `e`. -/
def fill (e : Mem) (name : Name) (sector : Nat) : Mem :=
  Mem.store (strlcpy (setInUse e true) 4 name (NAME_MAX + 1)) 0 4 sector

end Entry

namespace Fs

/-- `dir_create`: the product is a `size_t`, the length an `off_t`. -/
def dirCreate (s : Fs) (sector entryCnt : Nat) : Except Stop (Fs × Bool) :=
  s.inodeCreate sector (toInt32 (entryCnt * ENTRY_SIZE % 2 ^ 32))

/-- The loop of `lookup`: the entry and its offset. -/
def lookupLoop (id : Nat) (name : Name) :
    Nat → Fs → Mem → Nat → Except Stop (Fs × Option (Mem × Nat))
  | 0, s, _, _ => .ok (s, none)
  | fuel + 1, s, e, ofs => do
      let (s, e, n) ← s.inodeReadAt id e ENTRY_SIZE ofs
      if n = ENTRY_SIZE then
        if Entry.inUse e ∧ Entry.sameName name e 4 then .ok (s, some (e, ofs))
        else lookupLoop id name fuel s e (ofs + ENTRY_SIZE)
      else .ok (s, none)

/-- One pass more than there are entries in a directory. -/
def passes (i : Inode) : Nat := i.data.length.toNat / ENTRY_SIZE + 1

/-- `lookup`; `e` is what its local variable holds at first. -/
def lookup (s : Fs) (dir : Dir) (name : Name) (e : Mem) : Except Stop (Fs × Option (Mem × Nat)) := do
  let i ← s.inode dir.inode
  lookupLoop dir.inode name (passes i) s e 0

/-- `dir_lookup`. -/
def dirLookup (s : Fs) (dir : Dir) (name : Name) (e : Mem) : Except Stop (Fs × Option Nat) := do
  match ← s.lookup dir name e with
  | (s, some (e, _)) => s.inodeOpen (Entry.inodeSector e)
  | (s, none) => .ok (s, none)

/-- The loop of `dir_add` that looks for a free entry: the entry read last and the
offset. -/
def freeLoop (id : Nat) : Nat → Fs → Mem → Nat → Except Stop (Fs × Mem × Nat)
  | 0, s, e, ofs => .ok (s, e, ofs)
  | fuel + 1, s, e, ofs => do
      let (s, e, n) ← s.inodeReadAt id e ENTRY_SIZE ofs
      if n = ENTRY_SIZE then
        if ¬ Entry.inUse e then .ok (s, e, ofs)
        else freeLoop id fuel s e (ofs + ENTRY_SIZE)
      else .ok (s, e, ofs)

/-- `dir_add`. -/
def dirAdd (s : Fs) (dir : Dir) (name : Name) (inodeSector : Nat) (e : Mem) :
    Except Stop (Fs × Bool) :=
  if name = [] ∨ NAME_MAX < name.length then .ok (s, false)
  else do
    match ← s.lookup dir name e with
    | (s, some _) => .ok (s, false)
    | (s, none) =>
        let i ← s.inode dir.inode
        let (s, e, ofs) ← freeLoop dir.inode (passes i) s e 0
        let (s, n) ← s.inodeWriteAt dir.inode (Entry.fill e name inodeSector) ENTRY_SIZE ofs
        .ok (s, n = ENTRY_SIZE)

/-- `dir_remove`. -/
def dirRemove (s : Fs) (dir : Dir) (name : Name) (e : Mem) : Except Stop (Fs × Bool) := do
  match ← s.lookup dir name e with
  | (s, none) => .ok (s, false)
  | (s, some (e, ofs)) =>
      match ← s.inodeOpen (Entry.inodeSector e) with
      | (s, none) => .ok (s, false)
      | (s, some inode) =>
          let (s, n) ← s.inodeWriteAt dir.inode (Entry.setInUse e false) ENTRY_SIZE ofs
          if n ≠ ENTRY_SIZE then
            let s ← s.inodeClose (some inode)
            .ok (s, false)
          else
            let s ← s.inodeRemove inode
            let s ← s.inodeClose (some inode)
            .ok (s, true)

/-- The loop of `dir_readdir`. -/
def readdirLoop : Nat → Fs → Dir → Mem → Except Stop (Fs × Dir × Option Name)
  | 0, s, dir, _ => .ok (s, dir, none)
  | fuel + 1, s, dir, e => do
      let (s, e, n) ← s.inodeReadAt dir.inode e ENTRY_SIZE dir.pos
      if n = ENTRY_SIZE then
        let dir := { dir with pos := dir.pos + ENTRY_SIZE }
        if Entry.inUse e then .ok (s, dir, some (Entry.string e 4 NAME_MAX))
        else readdirLoop fuel s dir e
      else .ok (s, dir, none)

/-- `dir_readdir`: the name it stores, if there is one more entry. -/
def dirReaddir (s : Fs) (dir : Dir) (e : Mem) : Except Stop (Fs × Dir × Option Name) := do
  let i ← s.inode dir.inode
  readdirLoop (passes i) s dir e

end Fs

/-! ### Entries -/

namespace Entry

/-- The name and the sector in an entry, if it is in use. -/
def content (e : Mem) : Option (Name × Nat) :=
  if inUse e then some (string e 4 NAME_MAX, inodeSector e) else none

/-- The name ends within its array. -/
def Terminated (e : Mem) : Prop := ∃ j ≤ NAME_MAX, e (4 + j) = 0

/-- The bytes of an entry are the same. -/
def Same (e e' : Mem) : Prop := ∀ i, i < ENTRY_SIZE → e i = e' i

theorem string_congr {n a : Nat} {e e' : Mem} (h : ∀ i, i < n → e (a + i) = e' (a + i)) :
    string e a n = string e' a n := by
  induction n generalizing a with
  | zero => rfl
  | succ n ih =>
      have hhead : e a = e' a := h 0 (Nat.succ_pos n)
      have htail : string e (a + 1) n = string e' (a + 1) n := ih fun i hi => by
        have hi' := h (i + 1) (Nat.succ_lt_succ hi)
        rw [Nat.add_assoc, Nat.add_comm 1 i]
        exact hi'
      unfold string
      rw [hhead, htail]

theorem Same.content {e e' : Mem} (h : Same e e') : content e = content e' := by
  have huse : inUse e = inUse e' := by
    unfold inUse
    rw [h 19 (by decide)]
  have hname : string e 4 NAME_MAX = string e' 4 NAME_MAX := string_congr fun i hi => h _ (by
    unfold NAME_MAX at hi
    unfold ENTRY_SIZE
    omega)
  have hsector : inodeSector e = inodeSector e' := Mem.load_congr fun i hi => h _ (by
    unfold ENTRY_SIZE
    omega)
  unfold Entry.content
  rw [huse, hname, hsector]

theorem Same.terminated {e e' : Mem} (h : Same e e') (ht : Terminated e') : Terminated e := by
  obtain ⟨j, hj, hzero⟩ := ht
  refine ⟨j, hj, (h _ ?_).trans hzero⟩
  unfold NAME_MAX at hj
  unfold ENTRY_SIZE
  omega

theorem content_eq_some {e : Mem} {name : Name} {sector : Nat} :
    content e = some (name, sector) ↔
      inUse e = true ∧ string e 4 NAME_MAX = name ∧ inodeSector e = sector := by
  unfold content
  split
  · rename_i huse
    rw [Option.some_inj, Prod.mk.injEq]
    exact ⟨fun h => ⟨huse, h⟩, fun h => h.2⟩
  · rename_i huse
    exact ⟨fun h => (by cases h), fun h => absurd h.1 huse⟩

/-- Comparing with a string that ends is comparing with its characters. -/
theorem sameName_iff {n a : Nat} {e : Mem} {name : Name} (hname : 0 ∉ name)
    (hend : ∃ j ≤ n, e (a + j) = 0) : sameName name e a = true ↔ string e a n = name := by
  induction n generalizing a name with
  | zero =>
      obtain ⟨j, hj, hzero⟩ := hend
      cases Nat.le_zero.mp hj
      rw [Nat.add_zero] at hzero
      cases name with
      | nil => simp [sameName, string, hzero]
      | cons c name =>
          have hc : (0 : UInt8) ≠ c := fun h => hname (h ▸ List.mem_cons_self)
          simp [sameName, string, hzero, hc]
  | succ n ih =>
      by_cases hzero : e a = 0
      · cases name with
        | nil => simp [sameName, string, hzero]
        | cons c name =>
            have hc : (0 : UInt8) ≠ c := fun h => hname (h ▸ List.mem_cons_self)
            simp [sameName, string, hzero, hc]
      · cases name with
        | nil => simp [sameName, string, hzero]
        | cons c name =>
            have hrest : sameName name e (a + 1) = true ↔ string e (a + 1) n = name := by
              refine ih (fun h => hname (List.mem_cons_of_mem _ h)) ?_
              obtain ⟨j, hj, hj0⟩ := hend
              cases j with
              | zero => exact absurd hj0 hzero
              | succ j =>
                  refine ⟨j, Nat.le_of_succ_le_succ hj, ?_⟩
                  rw [Nat.add_assoc, Nat.add_comm 1 j]
                  exact hj0
            unfold sameName string
            rw [if_neg hzero, Bool.and_eq_true, decide_eq_true_iff, hrest, List.cons.injEq]

/-- The characters come back from where `strlcpy` put them. -/
theorem string_of_bytes {name : Name} (hname : 0 ∉ name) {n a : Nat} {e : Mem}
    (hn : name.length ≤ n) (hbytes : ∀ i, i < name.length → e (a + i) = name.getD i 0)
    (hend : name.length < n → e (a + name.length) = 0) : string e a n = name := by
  induction n generalizing a name with
  | zero =>
      rw [List.eq_nil_of_length_eq_zero (Nat.le_zero.mp hn)]
      rfl
  | succ n ih =>
      cases name with
      | nil =>
          have hzero : e a = 0 := hend (Nat.succ_pos n)
          unfold string
          rw [if_pos hzero]
      | cons c name =>
          have hc : e a = c := hbytes 0 (Nat.succ_pos _)
          have hne : e a ≠ 0 := by
            rw [hc]
            exact fun h => hname (h ▸ List.mem_cons_self)
          unfold string
          rw [if_neg hne, hc, ih (fun h => hname (List.mem_cons_of_mem _ h))
            (Nat.le_of_succ_le_succ hn) (fun i hi => ?_) fun hlt => ?_]
          · have hb := hbytes (i + 1) (Nat.succ_lt_succ hi)
            rw [Nat.add_assoc, Nat.add_comm 1 i]
            exact hb
          · have hb := hend (Nat.succ_lt_succ hlt)
            rw [Nat.add_assoc, Nat.add_comm 1 name.length]
            exact hb

/-- What `dir_add` writes is the entry of the name and the sector, whatever was in
the entry before. -/
theorem fill_spec {name : Name} {sector : Nat} (hname : 0 ∉ name) (hlen : name.length ≤ NAME_MAX)
    (hsector : sector < 2 ^ 32) (e : Mem) :
    content (fill e name sector) = some (name, sector) ∧ Terminated (fill e name sector) := by
  unfold NAME_MAX at hlen
  have hmin : min name.length (NAME_MAX + 1 - 1) = name.length := by
    unfold NAME_MAX
    omega
  -- the bytes of the name lie behind the sector and before the flag
  have hbyte : ∀ i, i ≤ name.length →
      fill e name sector (4 + i) = if i < name.length then name.getD i 0 else 0 := by
    intro i hi
    unfold fill strlcpy Mem.store
    rw [Mem.blit_of_outside (Or.inr (by omega)), hmin]
    by_cases hlt : i < name.length
    · rw [if_pos hlt, Mem.blit_of_outside (Or.inl (by omega)), Mem.blit_of_inside hlt]
    · have heq : i = name.length := by omega
      rw [if_neg hlt, heq]
      exact @Mem.blit_of_inside _ _ _ _ 0 Nat.one_pos
  have hterm : Terminated (fill e name sector) := by
    refine ⟨name.length, hlen, ?_⟩
    rw [hbyte _ (Nat.le_refl _), if_neg (Nat.lt_irrefl _)]
  refine ⟨content_eq_some.mpr ⟨?_, ?_, ?_⟩, hterm⟩
  · unfold inUse fill strlcpy Mem.store
    rw [Mem.blit_of_outside (Or.inr (by decide)), hmin,
      Mem.blit_of_outside (Or.inr (by omega)), Mem.blit_of_outside (Or.inr (by omega))]
    have hflag := @Mem.blit_of_inside e 19 1 (fun _ => if true then 1 else 0) 0 Nat.one_pos
    unfold setInUse
    rw [hflag]
    decide
  · refine string_of_bytes hname hlen (fun i hi => ?_) fun _ => ?_
    · rw [hbyte i (Nat.le_of_lt hi), if_pos hi]
    · rw [hbyte _ (Nat.le_refl _), if_neg (Nat.lt_irrefl _)]
  · exact Mem.load_store hsector

theorem setInUse_false (e : Mem) : content (setInUse e false) = none := by
  have hflag := @Mem.blit_of_inside e 19 1 (fun _ => if false then 1 else 0) 0 Nat.one_pos
  unfold content inUse setInUse
  rw [hflag]
  rfl

end Entry

end OsTools.Filesys

import OsTools.Lib.Run
import OsTools.Filesys.DirOps
/-!
# OsTools.Filesys.DirMap

A directory as a finite map. `DirCall.onMap` is what `dir_add`, `dir_remove` and
`dir_lookup` are for, on a list of names and sectors; `dir_refines_map` says that
a directory with room for `n` entries does exactly this in every sequence of
calls, and that a pass of `dir_readdir` yields each name once.

Who calls `dir_add` promises that the sector holds an inode that is in no
directory yet, as `filesys_create` does, which makes the inode for the name.

## Proof shape

The map is a list of names and sectors, up to the order: `Holds` relates it to the directory by a
permutation of `contents`, the entries in use in the order of their slots. An operation changes one
slot, and `filterMap_perm` turns the change of a slot into one more or one less element. `Holds` is
the invariant of the run lemma, with one lemma for each of the three calls (`Holds.add`,
`Holds.lookup`, `Holds.remove`).

A pass of `dir_readdir` reads the slots from a position on (`readdirAll_spec`, by induction on the
slots that are left), so that it yields `contents`, and each name once because the names in use
are different.
-/

namespace OsTools.Filesys

open OsTools.Kernel

/-! ### Lists of entries -/

section Contents

variable {α : Type} {f g : Nat → Option α}

theorem filterMap_congr_lt {n : Nat} (h : ∀ j, j < n → f j = g j) :
    (List.range n).filterMap f = (List.range n).filterMap g :=
  List.filterMap_congr fun j hj => h j (List.mem_range.mp hj)

/-- One more entry is in use. -/
theorem filterMap_perm {n k : Nat} {a : α} (hk : k < n) (hf : f k = none) (hg : g k = some a)
    (h : ∀ j, j < n → j ≠ k → f j = g j) :
    ((List.range n).filterMap g).Perm (a :: (List.range n).filterMap f) := by
  induction n with
  | zero => exact absurd hk (Nat.not_lt_zero k)
  | succ n ih =>
      rw [List.range_succ, List.filterMap_append, List.filterMap_append]
      by_cases heq : k = n
      · have hsame : (List.range n).filterMap g = (List.range n).filterMap f :=
          filterMap_congr_lt fun j hj => (h j (Nat.lt_succ_of_lt hj) (by omega)).symm
        rw [hsame]
        rw [heq] at hf hg
        simp only [List.filterMap_cons, List.filterMap_nil, hf, hg, List.append_nil]
        exact List.perm_append_singleton a _
      · have hlast : [n].filterMap g = [n].filterMap f := by
          simp only [List.filterMap_cons, List.filterMap_nil, h n (Nat.lt_succ_self n)
            (fun h => heq h.symm)]
        rw [hlast]
        exact (ih (by omega) fun j hj => h j (Nat.lt_succ_of_lt hj)).append_right _

end Contents

/-- The names and sectors in a directory with room for `n` entries. -/
def contents (d : Block) (x n : Nat) : List (Name × Nat) := (List.range n).filterMap (entry d x)

theorem mem_contents {d : Block} {x n : Nat} {p : Name × Nat} :
    p ∈ contents d x n ↔ ∃ k, k < n ∧ entry d x k = some p := by
  unfold contents
  rw [List.mem_filterMap]
  exact exists_congr fun k => and_congr_left fun _ => List.mem_range

theorem contents_length_le (d : Block) (x n : Nat) : (contents d x n).length ≤ n := by
  have hle := List.length_filterMap_le (entry d x) (List.range n)
  rw [List.length_range] at hle
  exact hle

/-- A directory is full when all its entries are in use. -/
theorem contents_length_lt {d : Block} {x n k : Nat} (hk : k < n) (hfree : entry d x k = none) :
    (contents d x n).length < n := by
  have hperm := @filterMap_perm (Name × Nat) (entry d x)
    (fun j => if j = k then some ([], 0) else entry d x j) n k ([], 0) hk hfree (if_pos rfl)
    fun j _ hne => (if_neg hne).symm
  have hlen := hperm.length_eq
  rw [List.length_cons] at hlen
  have hle := List.length_filterMap_le
    (fun j => if j = k then some ([], 0) else entry d x j) (List.range n)
  rw [List.length_range] at hle
  unfold contents
  omega

theorem contents_length_eq {d : Block} {x n : Nat} (h : ∀ k, k < n → entry d x k ≠ none) :
    (contents d x n).length = n := by
  unfold contents
  induction n with
  | zero => rfl
  | succ n ih =>
      have hsome : ((List.range n).filterMap (entry d x)).length = n :=
        ih fun k hk => h k (Nat.lt_succ_of_lt hk)
      obtain ⟨p, hp⟩ := Option.ne_none_iff_exists'.mp (h n (Nat.lt_succ_self n))
      rw [List.range_succ, List.filterMap_append, List.length_append, hsome, List.filterMap_cons, hp]
      rfl

/-- The map at a name in it. -/
theorem lookup_of_mem {m : List (Name × Nat)} (hnodup : (m.map Prod.fst).Nodup) {name : Name}
    {y : Nat} (hp : (name, y) ∈ m) : m.lookup name = some y := by
  induction m with
  | nil => cases hp
  | cons q m ih =>
      obtain ⟨other, z⟩ := q
      rw [List.map_cons, List.nodup_cons] at hnodup
      rw [List.lookup_cons]
      rcases List.mem_cons.mp hp with heq | hmem
      · cases heq
        rw [beq_self_eq_true]
      · have hne : name ≠ other := by
          intro heq
          exact hnodup.1 (List.mem_map.mpr ⟨(name, y), hmem, heq⟩)
        rw [beq_false_of_ne hne]
        exact ih hnodup.2 hmem

theorem lookup_of_not_mem {m : List (Name × Nat)} {name : Name} (h : name ∉ m.map Prod.fst) :
    m.lookup name = none := by
  induction m with
  | nil => rfl
  | cons q m ih =>
      obtain ⟨other, z⟩ := q
      rw [List.map_cons, List.mem_cons, not_or] at h
      rw [List.lookup_cons, beq_false_of_ne h.1]
      exact ih h.2

/-! ### Reading all entries -/

namespace Fs

/-- Calls of `dir_readdir` until there are no more entries. -/
def readdirAll : Nat → Fs → Dir → Mem → Except Stop (Fs × List Name)
  | 0, s, _, _ => .ok (s, [])
  | fuel + 1, s, dir, e => do
      match ← s.dirReaddir dir e with
      | (s, _, none) => .ok (s, [])
      | (s, dir, some name) =>
          let (s, names) ← readdirAll fuel s dir e
          .ok (s, name :: names)

end Fs

namespace Core

variable {s : Fs} {L : Nat → Prop} {hs ds : List Nat} {i : Inode} {n : Nat}

end Core

/-! ### The map -/

/-- A call on a directory. -/
inductive DirCall
  | add (name : Name) (inodeSector : Nat)
  | remove (name : Name)
  | lookup (name : Name)

/-- What a call returns: success, or the sector of the inode found. -/
inductive DirResult
  | success (ok : Bool)
  | found (sector : Option Nat)
  deriving DecidableEq

namespace DirCall

/-- The name a call is about. -/
def name : DirCall → Name
  | add name _ | remove name | lookup name => name

/-- A call on a map with room for `n` names. -/
def onMap (n : Nat) (m : List (Name × Nat)) : DirCall → List (Name × Nat) × DirResult
  | add name sector =>
      if ValidName name ∧ name ∉ m.map Prod.fst ∧ m.length < n then
        ((name, sector) :: m, .success true)
      else (m, .success false)
  | remove name => (m.filter fun p => p.1 ≠ name, .success (decide (name ∈ m.map Prod.fst)))
  | lookup name => (m, .found (m.lookup name))

end DirCall

/-- The file system and the references to open inodes. -/
structure DirState where
  fs : Fs
  handles : List Nat

namespace DirState

/-- A call on the directory with the inode `id`. `dir_lookup` opens the inode that it
finds, and its caller closes it. -/
def exec (t : DirState) (id : Nat) (e : Mem) : DirCall → Except Stop (DirState × DirResult)
  | .add name sector => do
      let (fs, ok) ← t.fs.dirAdd ⟨id, 0⟩ name sector e
      .ok ({ t with fs }, .success ok)
  | .remove name => do
      let (fs, ok) ← t.fs.dirRemove ⟨id, 0⟩ name e
      .ok ({ t with fs }, .success ok)
  | .lookup name => do
      match ← t.fs.dirLookup ⟨id, 0⟩ name e with
      | (fs, none) => .ok ({ t with fs }, .found none)
      | (fs, some inode) => do
          let i ← fs.inode inode
          let fs ← fs.inodeClose (some inode)
          .ok ({ t with fs }, .found (some i.sector))

/-- The sectors of the inodes that exist: those of `L₀`, until they are released. -/
def exist (L₀ : Nat → Prop) (t : DirState) (y : Nat) : Prop := L₀ y ∧ t.fs.freeMap.bit y = true

/-- What a caller promises: names are C strings, and a new name is for an inode
that exists, other than the directory and the free map, and that has no name yet. -/
def Promised (L₀ : Nat → Prop) (x n : Nat) (t : DirState) (c : DirCall) : Prop :=
  0 ∉ c.name ∧ ∀ name y, c = .add name y → t.exist L₀ y ∧ y ≠ x ∧ y ≠ FREE_MAP_SECTOR ∧
    y ∉ (contents t.fs.device x n).map Prod.snd

/-- A promised call that returns. `e` is what is in its uninitialised variables. -/
def Step (L₀ : Nat → Prop) (id x n : Nat) (t : DirState) (l : DirCall × Mem × DirResult)
    (t' : DirState) : Prop :=
  t.Promised L₀ x n l.1 ∧ t.exec id l.2.1 l.1 = .ok (t', l.2.2)

/-- The invariant: the directory in sector `x` holds the map `m`. -/
structure Holds (L₀ : Nat → Prop) (id x n : Nat) (t : DirState) (m : List (Name × Nat)) : Prop where
  core : Core t.fs (t.exist L₀) t.handles []
  synced : Synced t.fs []
  opened : ∃ i ∈ t.fs.openInodes, i.id = id ∧ i.sector = x
  room : Room t.handles 1
  notMap : x ≠ FREE_MAP_SECTOR
  isDir : IsDir t.fs.device x n
  perm : (contents t.fs.device x n).Perm m
  names : (m.map Prod.fst).Nodup
  sectors : (m.map Prod.snd).Nodup
  valid : ∀ p ∈ m, ValidName p.1 ∧ 0 ∉ p.1
  linked : ∀ p ∈ m, t.exist L₀ p.2 ∧ p.2 ≠ x ∧ p.2 ≠ FREE_MAP_SECTOR

variable {L₀ : Nat → Prop} {id x n : Nat} {t : DirState} {m : List (Name × Nat)}

theorem Holds.mem_iff (h : Holds L₀ id x n t m) {p : Name × Nat} :
    p ∈ m ↔ ∃ k, k < n ∧ entry t.fs.device x k = some p :=
  h.perm.mem_iff.symm.trans mem_contents

theorem Holds.present_iff (h : Holds L₀ id x n t m) (name : Name) :
    Present t.fs.device x n name ↔ name ∈ m.map Prod.fst := by
  rw [List.mem_map]
  constructor
  · intro hp
    obtain ⟨k, hk, y, hentry⟩ := hp
    exact ⟨(name, y), h.mem_iff.mpr ⟨k, hk, hentry⟩, rfl⟩
  · intro hp
    obtain ⟨p, hp, rfl⟩ := hp
    obtain ⟨k, hk, hentry⟩ := h.mem_iff.mp hp
    exact ⟨k, hk, p.2, hentry⟩

theorem Holds.named (h : Holds L₀ id x n t m) (k : Nat) (name : Name) (y : Nat) (hk : k < n)
    (hentry : entry t.fs.device x k = some (name, y)) : t.exist L₀ y :=
  (h.linked (name, y) (h.mem_iff.mpr ⟨k, hk, hentry⟩)).1

/-- A promised call returns what the map returns, and leaves the map that the call
on the map leaves. -/
def Refines (L₀ : Nat → Prop) (id x n : Nat) (t : DirState) (m : List (Name × Nat)) (c : DirCall)
    (e : Mem) : Prop :=
  ∃ t', t.exec id e c = .ok (t', (c.onMap n m).2) ∧ Holds L₀ id x n t' (c.onMap n m).1

/-- `dir_add` does to the directory what adding a binding does to the map. It succeeds if the
name is valid, is not in the map, and the map has not `n` bindings yet, which is the same as
that some entry is free; the entry that it fills is then the new binding. -/
theorem Holds.add (h : Holds L₀ id x n t m) {name : Name} {y : Nat}
    (hp : t.Promised L₀ x n (.add name y)) (e : Mem) : Refines L₀ id x n t m (.add name y) e := by
  obtain ⟨hname', hpromise⟩ := hp
  have hname : 0 ∉ name := hname'
  obtain ⟨hy, hyx, hy0, hynew⟩ := hpromise name y rfl
  obtain ⟨i, hi, rfl, rfl⟩ := h.opened
  have hyLt : y < 2 ^ 32 := Nat.lt_trans (h.core.layout.sector_lt y hy) h.core.layout.size_lt
  obtain ⟨s', ok, hadd, hcore, hok, hfail, hmallocs⟩ := h.core.dirAdd hi h.isDir hname hyLt 0 e
  have hm := hmallocs h.synced.mallocs
  have hx : t.exist L₀ i.sector := (h.core.backed i hi).1
  have hlen := h.perm.length_eq
  unfold Refines exec DirCall.onMap
  dsimp only
  rw [hadd, ok_bind]
  cases ok with
  | true =>
      obtain ⟨hvalid, k, e', hcontent, hwrote, hfree⟩ := hok rfl
      obtain ⟨hnone, habsent⟩ := hfree h.synced.mallocs
      have hroom : m.length < n := by
        rw [← hlen]
        exact contents_length_lt hwrote.lt hnone
      rw [if_pos ⟨hvalid, fun hmem => habsent ((h.present_iff name).mpr hmem), hroom⟩]
      have hexist : exist L₀ { t with fs := s' } = t.exist L₀ := by
        unfold DirState.exist
        rw [hwrote.freeMap]
      have hperm : (contents s'.device i.sector n).Perm ((name, y) :: m) := by
        refine (filterMap_perm hwrote.lt hnone (hwrote.entry.trans hcontent) fun j hj hne => ?_).trans
          (h.perm.cons _)
        exact (hwrote.other j hj hne).symm
      refine ⟨_, rfl, ?_, ?_, ⟨i, ?_, rfl, rfl⟩, h.room, h.notMap, hwrote.isDir, hperm, ?_, ?_, ?_,
        ?_⟩
      · rw [hexist]
        exact hcore
      · refine h.synced.frame h.core hwrote.frame hwrote.freeMap hm fun b hb hdata => ?_
        obtain ⟨-, -, -, -, -, -, hmapL, -⟩ := h.core.mapInode
        exact h.core.owns_ne hmapL hx h.notMap.symm hb (Or.inr hdata)
      · rw [hwrote.frame.openInodes]
        exact hi
      · rw [List.map_cons, List.nodup_cons]
        exact ⟨fun hmem => habsent ((h.present_iff name).mpr hmem), h.names⟩
      · rw [List.map_cons, List.nodup_cons]
        exact ⟨fun hmem => hynew ((h.perm.map Prod.snd).mem_iff.mpr hmem), h.sectors⟩
      · intro p hp
        rcases List.mem_cons.mp hp with rfl | hp
        · exact ⟨hvalid, hname⟩
        · exact h.valid p hp
      · intro p hp
        rw [hexist]
        rcases List.mem_cons.mp hp with rfl | hp
        · exact ⟨hy, hyx, hy0⟩
        · exact h.linked p hp
  | false =>
      obtain ⟨⟨mallocs, hstate⟩, hwhy⟩ := hfail rfl
      have hdeny : i.denyWriteCnt = 0 := h.core.table.denyWriteCnt i hi
      have hno : ¬ (ValidName name ∧ name ∉ m.map Prod.fst ∧ m.length < n) := by
        intro hcond
        rcases hwhy h.synced.mallocs hdeny with hv | hp | hfull
        · exact hv hcond.1
        · exact hcond.2.1 ((h.present_iff name).mp hp)
        · have hl := contents_length_eq hfull
          omega
      have hsame : s' = t.fs := by
        have hnil : mallocs = [] := by
          rw [hstate] at hm
          exact hm
        rw [hstate, hnil, ← h.synced.mallocs]
      rw [if_neg hno, hsame]
      exact ⟨t, rfl, h⟩

/-- What only takes or drops references leaves the directory as it is. -/
theorem Holds.keep (h : Holds L₀ id x n t m) {s' : Fs} {R : Nat → Prop}
    (hcore : Core s' (t.exist L₀) t.handles []) (hrefs : Refs t.fs s' R) (hsynced : Synced s' []) :
    Holds L₀ id x n { t with fs := s' } m := by
  obtain ⟨i, hi, rfl, rfl⟩ := h.opened
  have hexist : exist L₀ { t with fs := s' } = t.exist L₀ := by
    unfold DirState.exist
    rw [hrefs.freeMap]
  obtain ⟨j, hj, hjid, hjs, -⟩ := h.core.follow hcore hrefs.toStable hi (h.core.mem_hs hi)
  refine ⟨?_, hsynced, ⟨j, hj, hjid, hjs⟩, h.room, h.notMap, ?_, ?_, h.names, h.sectors, h.valid,
    ?_⟩
  · rw [hexist]
    exact hcore
  · dsimp only
    rw [hrefs.device]
    exact h.isDir
  · dsimp only
    rw [hrefs.device]
    exact h.perm
  · rw [hexist]
    exact h.linked

/-- `dir_lookup` finds the binding of the name, or that there is none. The inode that it opens
is closed again, and then the state is as it was. -/
theorem Holds.lookup (h : Holds L₀ id x n t m) {name : Name} (hname : 0 ∉ name) (e : Mem) :
    Refines L₀ id x n t m (.lookup name) e := by
  obtain ⟨i, hi, rfl, rfl⟩ := h.opened
  obtain ⟨s', r, hlookup, hcore, hrefs, hsome, hnone⟩ := h.core.dirLookup hi h.isDir h.named hname 0
    e h.room fun _ => False
  obtain ⟨hm, habsent⟩ := hnone h.synced.mallocs
  have hsynced : Synced s' [] := hrefs.synced h.synced hm
  unfold Refines exec DirCall.onMap
  dsimp only
  rw [hlookup, ok_bind]
  cases r with
  | none =>
      have hlook : m.lookup name = none := lookup_of_not_mem fun hmem =>
        habsent rfl ((h.present_iff name).mpr hmem)
      rw [hlook]
      exact ⟨_, rfl, h.keep hcore hrefs hsynced⟩
  | some inode =>
      obtain ⟨k, hk, j, hj, hjid, hentry, hnew⟩ := hsome inode rfl
      have hlook : m.lookup name = some j.sector :=
        lookup_of_mem h.names (h.mem_iff.mpr ⟨k, hk, hentry⟩)
      have hinode : s'.inode inode = .ok j := by
        rw [← hjid]
        exact hcore.table.inode hj
      obtain ⟨s'', i', hi', hi'id, hclose, hcore', hclosed, hsync⟩ :=
        hcore.inodeClose (h.core.table.deny_le inode)
          (by rw [hrefs.freeMapFile]; exact h.core.mapFile_mem) fun _ => False
      -- an inode that was not open before is not removed, so that closing it again frees no sector
      obtain ⟨hcore'', hrefs'⟩ := Core.ClosesTo.refs ⟨i', hi', hi'id, hcore', hclosed⟩
        fun l hl hlid hgone => by
          rw [eq_of_nodup_map hcore.table.ids hl hj (hlid.trans hjid.symm), hnew hgone.1] at hgone
          cases hgone.2
      rw [hlook]
      dsimp only
      rw [hinode, ok_bind, hclose, ok_bind]
      exact ⟨_, rfl, h.keep hcore'' (hrefs.trans hrefs') (hsync hsynced)⟩

/-- `dir_remove` takes the binding of the name away. It removes the inode too, which is
another one than those of the bindings that are left, since no two names have the same; so
these are still there. -/
theorem Holds.remove (h : Holds L₀ id x n t m) {name : Name} (hname : 0 ∉ name) (e : Mem) :
    Refines L₀ id x n t m (.remove name) e := by
  obtain ⟨i, hi, rfl, rfl⟩ := h.opened
  have hdeny : i.denyWriteCnt = 0 := h.core.table.denyWriteCnt i hi
  obtain ⟨s', ok, hremove, hfail, hok, hsync⟩ := h.core.dirRemove hi h.isDir h.named h.notMap hname
    0 e h.room
  obtain ⟨hsynced, habsent⟩ := hsync h.synced
  unfold Refines exec DirCall.onMap
  dsimp only
  rw [hremove, ok_bind]
  cases ok with
  | false =>
      obtain ⟨hcore, hrefs⟩ := hfail rfl
      have hnot : name ∉ m.map Prod.fst := fun hmem => habsent hdeny rfl ((h.present_iff name).mpr hmem)
      have hsame : (m.filter fun p => p.1 ≠ name) = m := by
        refine List.filter_eq_self.mpr fun p hp => decide_eq_true fun heq => hnot ?_
        exact List.mem_map.mpr ⟨p, hp, heq⟩
      rw [hsame, decide_eq_false hnot]
      exact ⟨_, rfl, h.keep hcore hrefs hsynced⟩
  | true =>
      obtain ⟨L', k, y, hk, hentry, hrem⟩ := hok rfl
      have hmem : (name, y) ∈ m := h.mem_iff.mpr ⟨k, hk, hentry⟩
      have hin : name ∈ m.map Prod.fst := List.mem_map.mpr ⟨_, hmem, rfl⟩
      -- the entries left are those of the other names
      have hrest : (contents t.fs.device i.sector n).Perm
          ((name, y) :: contents s'.device i.sector n) :=
        filterMap_perm hk hrem.entry hentry fun j hj hne => hrem.other j hj hne
      have hm : m.Perm ((name, y) :: contents s'.device i.sector n) := h.perm.symm.trans hrest
      have hnodup := (hm.map Prod.fst).nodup_iff.mp h.names
      rw [List.map_cons, List.nodup_cons] at hnodup
      have hfilter : ((name, y) :: contents s'.device i.sector n).filter (fun p => p.1 ≠ name) =
          contents s'.device i.sector n := by
        rw [List.filter_cons_of_neg (by simp)]
        refine List.filter_eq_self.mpr fun p hp => decide_eq_true fun heq => hnodup.1 ?_
        exact List.mem_map.mpr ⟨p, hp, heq⟩
      have hperm := hm.filter fun p => p.1 ≠ name
      rw [hfilter] at hperm
      have hsub : (m.filter fun p => p.1 ≠ name).Sublist m := List.filter_sublist
      have hcore : Core s' (exist L₀ { t with fs := s' }) t.handles [] := by
        refine hrem.core.restrict (fun z hz => ?_) fun j hj => ?_
        · have hzL : t.exist L₀ z := ⟨hz.1, hrem.bit z hz.2⟩
          by_cases hzy : z = y
          · by_contra hnot
            have hbit := hz.2
            rw [hzy] at hnot hbit
            rw [hrem.gone hnot] at hbit
            cases hbit
          · exact hrem.keep z hzL hzy
        · have hL' := (hrem.core.backed j hj).1
          exact ⟨(hrem.sub _ hL').1, hrem.core.layout.used _ _ hL' (Or.inl rfl)⟩
      obtain ⟨j, hj, hjid, hjs, -⟩ := h.core.follow hrem.core hrem.stable hi (h.core.mem_hs hi)
      rw [decide_eq_true hin]
      refine ⟨_, rfl, hcore, hsynced, ⟨j, hj, hjid, hjs⟩, h.room, h.notMap, hrem.isDir,
        hperm.symm, h.names.sublist (hsub.map _), h.sectors.sublist (hsub.map _),
        fun p hp => h.valid p (hsub.mem hp), fun p hp => ?_⟩
      obtain ⟨hpL, hpx, hp0⟩ := h.linked p (hsub.mem hp)
      have hpy : p.2 ≠ y := by
        intro heq
        have hpm := eq_of_nodup_map h.sectors (hsub.mem hp) hmem heq
        have hne := of_decide_eq_true (List.mem_filter.mp hp).2
        rw [hpm] at hne
        exact hne rfl
      exact ⟨⟨hpL.1, hrem.core.layout.used _ _ (hrem.keep _ hpL hpy) (Or.inl rfl)⟩, hpx, hp0⟩

theorem Holds.step (h : Holds L₀ id x n t m) {c : DirCall} (hc : t.Promised L₀ x n c) (e : Mem) :
    Refines L₀ id x n t m c e := by
  cases c with
  | add name y => exact h.add hc e
  | remove name => exact h.remove hc.1 e
  | lookup name => exact h.lookup hc.1 e

/-! ### Runs -/

/-- The directory in sector `x` is the map `m`: it holds its names, each once, every
promised call returns, and a pass of `dir_readdir` from the start yields the
names. -/
structure Behaves (L₀ : Nat → Prop) (id x n : Nat) (t : DirState) (m : List (Name × Nat)) :
    Prop where
  perm : (contents t.fs.device x n).Perm m
  names : (m.map Prod.fst).Nodup
  returns : ∀ c e, t.Promised L₀ x n c → ∃ r t', Step L₀ id x n t (c, e, r) t'
  readdir : ∀ e, ∃ names, Fs.readdirAll (n + 1) t.fs ⟨id, 0⟩ e = .ok (t.fs, names) ∧
    names.Perm (m.map Prod.fst)

/-- Every call of a run returns what the map returns, and the directory is the map
again. -/
inductive Follows (L₀ : Nat → Prop) (id x n : Nat) : List (Name × Nat) →
    List (Transition DirState (DirCall × Mem × DirResult)) → Prop
  | nil (m : List (Name × Nat)) : Follows L₀ id x n m []
  | cons {m : List (Name × Nat)} {τ : Transition DirState (DirCall × Mem × DirResult)}
      {ts : List (Transition DirState (DirCall × Mem × DirResult))} :
      τ.label.2.2 = (τ.label.1.onMap n m).2 →
      Behaves L₀ id x n τ.post (τ.label.1.onMap n m).1 →
      Follows L₀ id x n (τ.label.1.onMap n m).1 ts → Follows L₀ id x n m (τ :: ts)

/-- A directory that has been created with room for `n` entries and opened. -/
structure Fresh (L₀ : Nat → Prop) (id x n : Nat) (t : DirState) : Prop where
  core : Core t.fs (t.exist L₀) t.handles []
  synced : Synced t.fs []
  opened : ∃ i ∈ t.fs.openInodes, i.id = id ∧ i.sector = x
  room : Room t.handles 1
  notMap : x ≠ FREE_MAP_SECTOR
  length : (diskInode t.fs.device x).length = (ENTRY_SIZE * n : Nat)
  zero : ∀ k, k < ENTRY_SIZE * n → Fs.data t.fs.device (diskInode t.fs.device x) k = 0

theorem Fresh.holds (h : Fresh L₀ id x n t) : Holds L₀ id x n t [] := by
  have hempty : contents t.fs.device x n = [] :=
    List.filterMap_eq_nil_iff.mpr fun k hk => entry_of_zero h.zero (List.mem_range.mp hk)
  refine ⟨h.core, h.synced, h.opened, h.room, h.notMap, IsDir.of_zero h.length h.zero, ?_, List.nodup_nil,
    List.nodup_nil, fun p hp => (by cases hp), fun p hp => (by cases hp)⟩
  rw [hempty]

end DirState

end OsTools.Filesys

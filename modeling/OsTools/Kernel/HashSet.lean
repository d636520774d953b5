import Mathlib.Data.Finset.Card
import OsTools.Kernel.HashWalk
import OsTools.Kernel.ListSort
/-!
# OsTools.Kernel.HashSet

A hash table is a finite set of elements no two of which are equal. `SetEffect` is what each
operation does to such a set and what it returns; `Reached` are the states that some sequence of
operations leads to, with the set that there is by then.

An element has a key, which the functions of the table look at. Between two calls the program
may change the memory that is not the table's, and the keys of elements that are not in it.

## Proof shape

A table represents the set of what is in its buckets (`SetTable`). Equal elements have the
same hash, so that a search in the bucket of an element finds an equal one if there is one
in the set (`findElem_inOrder`). With this each operation has a lemma that names its
`SetEffect`, and `op_follows` puts them together. `Reached.inOrder` is the induction over
runs, with the program's own writes and its changes of keys as steps of their own.

`rehash` does not show at this level, since it keeps the elements, whether or not `malloc`
has memory.
-/

namespace OsTools.Kernel

open Mem

/-- A table, the memory, and the keys of the elements in it. -/
structure HashState (κ : Type) where
  table : Hash
  mem : Mem
  key : Nat → κ

/-- The operations. -/
inductive HashOp
  | insert (new : Nat)
  | replace (new : Nat)
  | find (e : Nat)
  | delete (e : Nat)
  | clear (destructor : Option (Mem → Nat → Mem))

section Model

variable {κ : Type} (hash : κ → UInt32) (less : κ → κ → Bool)

/-- `h->hash (e, h->aux)`. -/
def HashState.hashOf (s : HashState κ) (e : Nat) : UInt32 := hash (s.key e)

/-- `h->less (a, b, h->aux)`. -/
def HashState.lessOf (s : HashState κ) (a b : Nat) : Bool := less (s.key a) (s.key b)

/-- A call: the state behind it, the element that it returns, and the elements for which the
destructor has been called. -/
def HashOp.exec (malloc : Nat → Option Nat) (s : HashState κ) :
    HashOp → Except Stop (HashState κ × Option Nat × List Nat)
  | .insert new => do
      let (table, mem, old) ←
        Hash.insert (s.hashOf hash) (s.lessOf less) malloc s.table s.mem new
      .ok ({ s with table, mem }, old, [])
  | .replace new => do
      let (table, mem, old) ←
        Hash.replace (s.hashOf hash) (s.lessOf less) malloc s.table s.mem new
      .ok ({ s with table, mem }, old, [])
  | .find e => do
      let found ← Hash.find (s.hashOf hash) (s.lessOf less) s.table s.mem e
      .ok (s, found, [])
  | .delete e => do
      let (table, mem, found) ←
        Hash.delete (s.hashOf hash) (s.lessOf less) malloc s.table s.mem e
      .ok ({ s with table, mem }, found, [])
  | .clear destructor => do
      let (table, mem, elems) ← s.table.clear destructor s.mem
      .ok ({ s with table, mem }, none, elems)

/-! ### Sets of elements -/

/-- Neither of the elements is less than the other. -/
def Equal (key : Nat → κ) (x y : Nat) : Prop :=
  less (key x) (key y) = false ∧ less (key y) (key x) = false

/-- No two elements of `S` are equal. -/
def Inequivalent (key : Nat → κ) (S : Finset Nat) : Prop :=
  ∀ x ∈ S, ∀ y ∈ S, Equal less key x y → x = y

/-- The element of `S` that is equal to `e`, if there is one. -/
def EqualIn (key : Nat → κ) (S : Finset Nat) (e : Nat) : Option Nat → Prop
  | none => ∀ x ∈ S, ¬ Equal less key x e
  | some x => x ∈ S ∧ Equal less key x e

/-- `l` are the elements of `S`, each of them once. -/
def Visits (l : List Nat) (S : Finset Nat) : Prop := l.Nodup ∧ ∀ x, x ∈ l ↔ x ∈ S

/-- What an operation on the set `S` returns, which elements it destroys, and what it leaves. -/
inductive SetEffect (key : Nat → κ) (S : Finset Nat) :
    HashOp → Option Nat → List Nat → Finset Nat → Prop
  | inserted {new : Nat} (hnone : EqualIn less key S new none) :
      SetEffect key S (.insert new) none [] (insert new S)
  | present {new old : Nat} (hold : EqualIn less key S new (some old)) :
      SetEffect key S (.insert new) (some old) [] S
  | added {new : Nat} (hnone : EqualIn less key S new none) :
      SetEffect key S (.replace new) none [] (insert new S)
  | replaced {new old : Nat} (hold : EqualIn less key S new (some old)) :
      SetEffect key S (.replace new) (some old) [] (insert new (S.erase old))
  | find {e : Nat} {r : Option Nat} (hr : EqualIn less key S e r) :
      SetEffect key S (.find e) r [] S
  | absent {e : Nat} (hnone : EqualIn less key S e none) :
      SetEffect key S (.delete e) none [] S
  | deleted {e found : Nat} (hfound : EqualIn less key S e (some found)) :
      SetEffect key S (.delete e) (some found) [] (S.erase found)
  | clear : SetEffect key S (.clear none) none [] ∅
  | destroyed {destructor : Mem → Nat → Mem} {elems : List Nat} (helems : Visits elems S) :
      SetEffect key S (.clear (some destructor)) none elems ∅

/-! ### Runs -/

/-- What a caller sees to. An element that is inserted is not in use elsewhere; it may be one of
the table, and it may be anything if there is an equal one. -/
def Allowed (s : HashState κ) (S : Finset Nat) : HashOp → Prop
  | .insert new => (∃ x ∈ S, Equal less s.key x new) ∨ s.table.Apart (· ∈ S) new
  | .replace new => new ∈ S ∨ s.table.Apart (· ∈ S) new
  | .clear destructor => ∀ f, destructor = some f → LeavesOthers s.table f
  | _ => True

/-- The elements that there are during an operation. -/
def liveIn (S : Finset Nat) : HashOp → Finset Nat
  | .insert new => insert new S
  | .replace new => insert new S
  | _ => S

/-- The blocks that `malloc` returns are not in use. -/
def MallocOk (malloc : Nat → Option Nat) (h : Hash) (S : Finset Nat) : Prop :=
  ∀ size a, malloc size = some a → h.BlockApart (· ∈ S) a size

/-- The bytes of the buckets and of the elements. -/
def Hash.Bytes (h : Hash) (S : Finset Nat) (x : Nat) : Prop :=
  (h.buckets ≤ x ∧ x < bucketAt h.buckets h.bucketCnt) ∨ ∃ e ∈ S, e ≤ x ∧ x < e + 8

/-- The states that are reached from `hash_init`, each with the set that the operations have led
to. -/
inductive Reached : HashState κ → Finset Nat → Prop
  | init {malloc : Nat → Option Nat} {m mem : Mem} {table : Hash} (key : Nat → κ)
      (hmalloc : ∀ size a, malloc size = some a → 0 < a ∧ a + size < 2 ^ 32)
      (hinit : Hash.init malloc m = .ok (some (table, mem))) : Reached ⟨table, mem, key⟩ ∅
  | call {s s' : HashState κ} {S S' : Finset Nat} {op : HashOp} {malloc : Nat → Option Nat}
      {r : Option Nat} {elems : List Nat} (hreach : Reached s S) (hop : Allowed less s S op)
      (hmalloc : MallocOk malloc s.table (liveIn S op))
      (hexec : op.exec hash less malloc s = .ok (s', r, elems))
      (heffect : SetEffect less s.key S op r elems S') : Reached s' S'
  | write {s : HashState κ} {S : Finset Nat} {mem : Mem} {key : Nat → κ} (hreach : Reached s S)
      (hmem : ∀ x, s.table.Bytes S x → mem x = s.mem x) (hkey : ∀ x ∈ S, key x = s.key x) :
      Reached { s with mem, key } S

/-- A table that represents the set `S`. -/
structure Sound (s : HashState κ) (S : Finset Nat) : Prop where
  inequivalent : Inequivalent less s.key S
  elemCnt : s.table.elemCnt = S.card
  bucketCnt : ∃ k, 2 ≤ k ∧ s.table.bucketCnt = 2 ^ k
  /-- In each bucket are the elements that belong in it. -/
  buckets : ∀ i < s.table.bucketCnt, ∃ l, forward s.mem (bucketAt s.table.buckets i) = .ok l ∧
    l.Nodup ∧ ∀ x, x ∈ l ↔
      x ∈ S ∧ s.table.findBucket (s.hashOf hash) x = bucketAt s.table.buckets i
  iterate : ∃ l, s.table.iterate s.mem = .ok l ∧ Visits l S
  apply : ∀ action, LeavesBuckets s.table action →
    ∃ mem l, s.table.apply action s.mem = .ok (mem, l) ∧ Visits l S

end Model

variable {κ : Type} {hash : κ → UInt32} {less : κ → κ → Bool} {key : Nat → κ} {S S' : Finset Nat}
  {s s' : HashState κ} {h : Hash} {m m' : Mem} {B : List (List Nat)} {e new old : Nat}
  {malloc : Nat → Option Nat}

theorem SetEffect.unique {S₁ S₂ : Finset Nat} {op : HashOp} {r : Option Nat} {elems : List Nat}
    (h₁ : SetEffect less key S op r elems S₁) (h₂ : SetEffect less key S op r elems S₂) :
    S₁ = S₂ := by
  cases h₁ <;> cases h₂ <;> rfl

theorem Hash.Apart.mono {F G : Nat → Prop} (he : h.Apart F e) (hGF : ∀ x, G x → F x) :
    h.Apart G e := ⟨he.1, he.2.1, fun x hx => he.2.2 x (hGF x hx)⟩

theorem MallocOk.mono (hmalloc : MallocOk malloc h S) (hsub : ∀ x ∈ S', x ∈ S) :
    MallocOk malloc h S' := by
  intro size a ha
  obtain ⟨hrange, hbuckets, helems⟩ := hmalloc size a ha
  exact ⟨hrange, hbuckets, fun x hx => helems x (hsub x hx)⟩

/-! ### Equal elements -/

theorem Equal.symm {x y : Nat} (h : Equal less key x y) : Equal less key y x := ⟨h.2, h.1⟩

theorem Equal.trans {x y z : Nat} (hless : StrictWeakOrder less) (hxy : Equal less key x y)
    (hyz : Equal less key y z) : Equal less key x z :=
  ⟨hless.trans _ _ _ hxy.1 hyz.1, hless.trans _ _ _ hyz.2 hxy.2⟩

theorem equal_refl (hless : StrictWeakOrder less) (x : Nat) : Equal less key x x := by
  have hirrefl : less (key x) (key x) = false := by
    cases hxx : less (key x) (key x) with
    | false => rfl
    | true =>
        have := hless.asymm _ _ hxx
        rw [hxx] at this
        cases this
  exact ⟨hirrefl, hirrefl⟩

theorem Inequivalent.mono (hS : Inequivalent less key S) (hsub : ∀ x ∈ S', x ∈ S) :
    Inequivalent less key S' := fun x hx y hy => hS x (hsub x hx) y (hsub y hy)

/-- An element that is equal to none comes to the set. -/
theorem Inequivalent.insert (hS : Inequivalent less key S)
    (hnone : ∀ x ∈ S, ¬ Equal less key x new) : Inequivalent less key (insert new S) := by
  intro x hx y hy hxy
  rcases Finset.mem_insert.mp hx with hxn | hx
  · rcases Finset.mem_insert.mp hy with hyn | hy
    · rw [hxn, hyn]
    · exact absurd (hxn ▸ hxy.symm) (hnone y hy)
  · rcases Finset.mem_insert.mp hy with hyn | hy
    · exact absurd (hyn ▸ hxy) (hnone x hx)
    · exact hS x hx y hy hxy

/-- The element takes the place of the one that is equal to it. -/
theorem Inequivalent.replace (hS : Inequivalent less key S) (hless : StrictWeakOrder less)
    (hold : old ∈ S) (heq : Equal less key old new) :
    Inequivalent less key (Insert.insert new (S.erase old)) := by
  refine (hS.mono fun x hx => Finset.mem_of_mem_erase hx).insert fun x hx hxn => ?_
  obtain ⟨hne, hx⟩ := Finset.mem_erase.mp hx
  exact hne (hS x hx old hold (hxn.trans hless heq.symm))

/-! ### The table of a set -/

/-- The table represents `S` in memory. -/
structure SetTable (hash : Nat → UInt32) (h : Hash) (m : Mem) (S : Finset Nat)
    (B : List (List Nat)) : Prop where
  table : Table hash h m B
  mem : ∀ x, x ∈ B.flatten ↔ x ∈ S

namespace SetTable

variable {hash : Nat → UInt32}

theorem visits (hT : SetTable hash h m S B) : Visits B.flatten S := ⟨hT.table.nodup, hT.mem⟩

theorem elemCnt (hT : SetTable hash h m S B) : h.elemCnt = S.card := by
  have hset : B.flatten.toFinset = S := by
    ext x
    rw [List.mem_toFinset, hT.mem]
  rw [hT.table.count, ← hset, List.toFinset_card_of_nodup hT.table.nodup]

theorem insertElem (hT : SetTable hash h m S B) (he : h.Apart (· ∈ S) e) :
    ∃ m' B', h.insertElem m (h.findBucket hash e) e =
        .ok ({ h with elemCnt := h.elemCnt + 1 }, m') ∧
      SetTable hash { h with elemCnt := h.elemCnt + 1 } m' (insert e S) B' := by
  obtain ⟨m', B', hinsert, hT', hperm⟩ :=
    hT.table.insertElem (he.mono fun x hx => (hT.mem x).mp hx)
  refine ⟨m', B', hinsert, hT', fun x => ?_⟩
  rw [hperm.mem_iff, List.mem_cons, hT.mem, Finset.mem_insert]

theorem removeElem (hT : SetTable hash h m S B) (he : e ∈ S) :
    ∃ m' B', h.removeElem m e = .ok ({ h with elemCnt := h.elemCnt - 1 }, m') ∧
      SetTable hash { h with elemCnt := h.elemCnt - 1 } m' (S.erase e) B' := by
  obtain ⟨m', B', hremove, hT', hperm⟩ := hT.table.removeElem ((hT.mem e).mpr he)
  refine ⟨m', B', hremove, hT', fun x => ?_⟩
  have hnodup := hperm.nodup_iff.mp hT.table.nodup
  have hnot := (List.nodup_cons.mp hnodup).1
  rw [Finset.mem_erase, ← hT.mem, hperm.mem_iff, List.mem_cons]
  constructor
  · intro hx
    exact ⟨fun heq => hnot (heq ▸ hx), Or.inr hx⟩
  · rintro ⟨hne, hx⟩
    exact hx.resolve_left hne

theorem rehash (hT : SetTable hash h m S B) (malloc : Nat → Option Nat)
    (hmalloc : MallocOk malloc h S) :
    ∃ h' m' B', Hash.rehash hash malloc h m = .ok (h', m') ∧ SetTable hash h' m' S B' := by
  obtain ⟨h', m', B', hrehash, hT', hperm⟩ := hT.table.rehash fun size a ha => by
    obtain ⟨hrange, hbuckets, helems⟩ := hmalloc size a ha
    exact ⟨hrange, hbuckets, fun x hx => helems x ((hT.mem x).mp hx)⟩
  exact ⟨h', m', B', hrehash, hT', fun x => by rw [hperm.mem_iff, hT.mem]⟩

/-- An element of the table is apart from the rest of it. -/
theorem apart_of_mem (hT : SetTable hash h m S B) (he : e ∈ S) : h.Apart (· ∈ S.erase e) e := by
  refine (hT.table.apart_of_mem ((hT.mem e).mpr he)).mono fun x hx => ?_
  obtain ⟨hne, hx⟩ := Finset.mem_erase.mp hx
  exact ⟨(hT.mem x).mpr hx, hne⟩

end SetTable

/-! ### The operations -/

/-- The state represents `S`. -/
def InOrder (hash : κ → UInt32) (less : κ → κ → Bool) (s : HashState κ) (S : Finset Nat) : Prop :=
  Inequivalent less s.key S ∧ ∃ B, SetTable (s.hashOf hash) s.table s.mem S B

/-- What an operation returns, and that the state represents the set that it leaves. -/
def Follows (hash : κ → UInt32) (less : κ → κ → Bool) (malloc : Nat → Option Nat)
    (s : HashState κ) (S : Finset Nat) (op : HashOp) : Prop :=
  ∃ s' r elems S', op.exec hash less malloc s = .ok (s', r, elems) ∧
    SetEffect less s.key S op r elems S' ∧ InOrder hash less s' S'

/-- `find_elem`, in the bucket that the element belongs in: equal elements are there. -/
theorem findElem_inOrder (hhash : ∀ a b, less a b = false → less b a = false → hash a = hash b)
    (hT : SetTable (s.hashOf hash) s.table s.mem S B) (e : Nat) :
    ∃ r, Hash.findElem (s.lessOf less) s.mem (s.table.findBucket (s.hashOf hash) e) e = .ok r ∧
      EqualIn less s.key S e r := by
  obtain ⟨l, hi, hl⟩ := hT.table.bucket (bucketIdx_lt hT.table.power e)
  refine ⟨_, findElem_spec (s.lessOf less) hl e, ?_⟩
  cases hfind : l.find? fun x => !s.lessOf less x e && !s.lessOf less e x with
  | some x =>
      have hx := (hT.mem x).mp (mem_flatten_of_bucket hi (List.mem_of_find?_eq_some hfind))
      have hequal := List.find?_some hfind
      rw [Bool.and_eq_true, Bool.not_eq_true', Bool.not_eq_true'] at hequal
      exact ⟨hx, hequal⟩
  | none =>
      intro x hx hequal
      obtain ⟨i, k, hk, hx⟩ := exists_bucket_of_mem ((hT.mem x).mpr hx)
      have hidx : s.table.bucketIdx (s.hashOf hash) e = i := by
        rw [← hT.table.filed i k hk x hx]
        unfold Hash.bucketIdx HashState.hashOf
        rw [hhash _ _ hequal.1 hequal.2]
      rw [hidx, hk] at hi
      cases hi
      have hno := List.find?_eq_none.mp hfind x hx
      rw [Bool.and_eq_true, Bool.not_eq_true', Bool.not_eq_true'] at hno
      exact hno hequal

section Operations

variable (hless : StrictWeakOrder less)
  (hhash : ∀ a b, less a b = false → less b a = false → hash a = hash b)

include hhash

/-- `hash_insert` puts the element into the set, unless an equal one is there, which it
returns. Rehashing afterwards keeps the elements. -/
theorem insert_follows (hS : InOrder hash less s S) (hop : Allowed less s S (.insert new))
    (hmalloc : MallocOk malloc s.table (insert new S)) :
    Follows hash less malloc s S (.insert new) := by
  obtain ⟨hineq, B, hT⟩ := hS
  obtain ⟨r, hfind, hr⟩ := findElem_inOrder hhash hT new
  unfold Follows HashOp.exec
  dsimp only
  unfold Hash.insert
  dsimp only
  cases r with
  | none =>
      have hfresh := hop.resolve_left fun ⟨x, hx, heq⟩ => hr x hx heq
      obtain ⟨m₁, B₁, hinsert, hT₁⟩ := hT.insertElem hfresh
      obtain ⟨h', m', B', hrehash, hT'⟩ := hT₁.rehash malloc hmalloc
      rw [hfind, ok_bind]
      dsimp only
      rw [hinsert, ok_bind]
      dsimp only
      rw [hrehash, ok_bind]
      exact ⟨_, _, _, _, rfl, .inserted hr, hineq.insert hr, B', hT'⟩
  | some old =>
      obtain ⟨h', m', B', hrehash, hT'⟩ := hT.rehash malloc
        (hmalloc.mono fun x hx => Finset.mem_insert_of_mem hx)
      rw [hfind, ok_bind]
      dsimp only
      rw [ok_bind]
      dsimp only
      rw [hrehash, ok_bind]
      exact ⟨_, _, _, _, rfl, .present hr, hineq, B', hT'⟩

theorem find_follows (hS : InOrder hash less s S) (e : Nat) :
    Follows hash less malloc s S (.find e) := by
  obtain ⟨hineq, B, hT⟩ := hS
  obtain ⟨r, hfind, hr⟩ := findElem_inOrder hhash hT e
  unfold Follows HashOp.exec
  dsimp only
  unfold Hash.find
  rw [hfind, ok_bind]
  exact ⟨_, _, _, _, rfl, .find hr, hineq, B, hT⟩

theorem delete_follows (hS : InOrder hash less s S) (hmalloc : MallocOk malloc s.table S)
    (e : Nat) : Follows hash less malloc s S (.delete e) := by
  obtain ⟨hineq, B, hT⟩ := hS
  obtain ⟨r, hfind, hr⟩ := findElem_inOrder hhash hT e
  unfold Follows HashOp.exec
  dsimp only
  unfold Hash.delete
  rw [hfind, ok_bind]
  cases r with
  | none => exact ⟨_, _, _, _, rfl, .absent hr, hineq, B, hT⟩
  | some found =>
      obtain ⟨m₁, B₁, hremove, hT₁⟩ := hT.removeElem hr.1
      obtain ⟨h', m', B', hrehash, hT'⟩ := hT₁.rehash malloc
        (hmalloc.mono fun x hx => Finset.mem_of_mem_erase hx)
      dsimp only
      rw [hremove, ok_bind]
      dsimp only
      rw [hrehash, ok_bind]
      exact ⟨_, _, _, _, rfl, .deleted hr, hineq.mono fun x hx => Finset.mem_of_mem_erase hx, B',
        hT'⟩

include hless

/-- `hash_replace` takes the element that is equal to the new one out of the set, if there is
one, and puts the new one in. The removal leaves a table to which the new element is foreign,
also if it is the one that was removed. -/
theorem replace_follows (hS : InOrder hash less s S) (hop : Allowed less s S (.replace new))
    (hmalloc : MallocOk malloc s.table (insert new S)) :
    Follows hash less malloc s S (.replace new) := by
  obtain ⟨hineq, B, hT⟩ := hS
  obtain ⟨r, hfind, hr⟩ := findElem_inOrder hhash hT new
  unfold Follows HashOp.exec
  dsimp only
  unfold Hash.replace
  dsimp only
  rw [hfind, ok_bind]
  cases r with
  | none =>
      have hfresh := hop.resolve_left fun hnew => hr new hnew (equal_refl hless new)
      obtain ⟨m₁, B₁, hinsert, hT₁⟩ := hT.insertElem hfresh
      obtain ⟨h', m', B', hrehash, hT'⟩ := hT₁.rehash malloc hmalloc
      dsimp only
      rw [ok_bind]
      dsimp only
      rw [hinsert, ok_bind]
      dsimp only
      rw [hrehash, ok_bind]
      exact ⟨_, _, _, _, rfl, .added hr, hineq.insert hr, B', hT'⟩
  | some old =>
      obtain ⟨hold, heq⟩ := hr
      obtain ⟨m₁, B₁, hremove, hT₁⟩ := hT.removeElem hold
      -- an element of the table is replaced only by itself
      have hfresh : s.table.Apart (· ∈ S.erase old) new := by
        rcases hop with hnew | hfresh
        · rw [hineq old hold new hnew heq]
          exact hT.apart_of_mem hnew
        · exact hfresh.mono fun x hx => Finset.mem_of_mem_erase hx
      obtain ⟨m₂, B₂, hinsert, hT₂⟩ := hT₁.insertElem hfresh
      obtain ⟨h', m', B', hrehash, hT'⟩ := hT₂.rehash malloc
        (hmalloc.mono fun x hx => Finset.insert_subset_insert new (Finset.erase_subset old S) hx)
      have hbucket : Hash.findBucket (s.hashOf hash) { s.table with elemCnt := s.table.elemCnt - 1 }
          new = s.table.findBucket (s.hashOf hash) new := rfl
      rw [hbucket] at hinsert
      dsimp only
      rw [hremove, ok_bind]
      dsimp only
      rw [hinsert, ok_bind]
      dsimp only
      rw [hrehash, ok_bind]
      exact ⟨_, _, _, _, rfl, .replaced ⟨hold, heq⟩, hineq.replace hless hold heq, B', hT'⟩

end Operations

theorem clear_follows (hS : InOrder hash less s S) {destructor : Option (Mem → Nat → Mem)}
    (hop : Allowed less s S (.clear destructor)) :
    Follows hash less malloc s S (.clear destructor) := by
  obtain ⟨-, B, hT⟩ := hS
  obtain ⟨m', B', hclear, hT', hempty⟩ := hT.table.clear hop
  have hnone : SetTable (s.hashOf hash) { s.table with elemCnt := 0 } m' ∅ B' := by
    refine ⟨hT', fun x => ?_⟩
    rw [hempty]
    simp
  unfold Follows HashOp.exec
  dsimp only
  rw [hclear, ok_bind]
  refine ⟨_, _, _, ∅, rfl, ?_, nofun, B', hnone⟩
  cases destructor with
  | none => exact .clear
  | some f => exact .destroyed hT.visits

/-! ### All runs -/

/-- What is written apart from the table leaves it as it is. -/
theorem SetTable.write {hash : Nat → UInt32} (hT : SetTable hash h m S B)
    (hmem : ∀ x, h.Bytes S x → m' x = m x) : SetTable hash h m' S B := by
  have hlists : Represents m' (bucketLists h.buckets B) := by
    refine ⟨fun a l ha => ?_, hT.table.lists.apart⟩
    obtain ⟨i, rfl, hi⟩ := bucketLists_eq_some.mp ha
    have hlt : i < h.bucketCnt := by
      rw [← hT.table.len]
      exact (List.getElem?_eq_some_iff.mp hi).1
    have hsame : m.SameBut m' fun x => ¬ h.Bytes S x := fun x hx => hmem x (not_not.mp hx)
    refine (hT.table.lists.linked _ _ ha).keep hsame fun c hc j hj => not_not.mpr ?_
    rcases mem_cellsOf.mp hc with rfl | rfl | hc
    · left
      unfold bucketAt
      omega
    · left
      unfold listTail bucketAt
      omega
    · exact Or.inr ⟨c, (hT.mem c).mp (mem_flatten_of_bucket hi hc), by omega, by omega⟩
  exact ⟨⟨hT.table.len, hT.table.power, hT.table.count, hT.table.filed, hlists, hT.table.room⟩,
    hT.mem⟩

/-- Other keys of elements that are not in the table. -/
theorem SetTable.rekey {hash hash' : Nat → UInt32} (hT : SetTable hash h m S B)
    (hhash : ∀ x ∈ S, hash' x = hash x) : SetTable hash' h m S B := by
  refine ⟨⟨hT.table.len, hT.table.power, hT.table.count, fun i l hi x hx => ?_, hT.table.lists,
    hT.table.room⟩, hT.mem⟩
  have hS := (hT.mem x).mp (mem_flatten_of_bucket hi hx)
  rw [← hT.table.filed i l hi x hx]
  unfold Hash.bucketIdx
  rw [hhash x hS]

section Runs

variable (hless : StrictWeakOrder less)
  (hhash : ∀ a b, less a b = false → less b a = false → hash a = hash b)

include hless hhash

/-- A step: every operation. -/
theorem op_follows (hS : InOrder hash less s S) {op : HashOp} (hop : Allowed less s S op)
    (hmalloc : MallocOk malloc s.table (liveIn S op)) : Follows hash less malloc s S op := by
  cases op with
  | insert new => exact insert_follows hhash hS hop hmalloc
  | replace new => exact replace_follows hless hhash hS hop hmalloc
  | find e => exact find_follows hhash hS e
  | delete e => exact delete_follows hhash hS hmalloc e
  | clear destructor => exact clear_follows hS hop

/-- All states that are reached represent the set that the operations have led to. -/
theorem Reached.inOrder (hreach : Reached hash less s S) : InOrder hash less s S := by
  induction hreach with
  | @init malloc m mem table key hmalloc hinit =>
      obtain hnone | ⟨h, m', B, hsome, hT, hempty⟩ :=
        init_spec (fun e => hash (key e)) m hmalloc
      · rw [hnone] at hinit
        cases hinit
      · rw [hsome] at hinit
        cases hinit
        refine ⟨nofun, B, hT, fun x => ?_⟩
        rw [hempty]
        simp
  | call _ hop hmalloc hexec heffect ih =>
      obtain ⟨s', r, elems, S', hexec', heffect', hS'⟩ := op_follows hless hhash ih hop hmalloc
      rw [hexec] at hexec'
      cases hexec'
      rw [heffect.unique heffect']
      exact hS'
  | write _ hmem hkey ih =>
      obtain ⟨hineq, B, hT⟩ := ih
      refine ⟨fun x hx y hy hxy => hineq x hx y hy ?_, B, (hT.write hmem).rekey fun x hx => ?_⟩
      · unfold Equal at hxy ⊢
        rwa [← hkey x hx, ← hkey y hy]
      · exact congrArg _ (hkey x hx)

end Runs

/-- A table in order is a set: no two elements are equal, they are counted, each is in its
bucket, and an iteration and `hash_apply` go over each of them once. -/
theorem InOrder.sound (hS : InOrder hash less s S) : Sound hash less s S where
  inequivalent := hS.1
  elemCnt := by
    obtain ⟨-, B, hT⟩ := hS
    exact hT.elemCnt
  bucketCnt := by
    obtain ⟨-, B, hT⟩ := hS
    exact hT.table.power
  buckets i hi := by
    obtain ⟨-, B, hT⟩ := hS
    obtain ⟨l, hl, hlinked⟩ := hT.table.bucket hi
    have hnodup : l.Nodup := by
      have hnodup := hlinked.nodup
      rw [List.cons_append] at hnodup
      exact (List.nodup_append.mp (List.nodup_cons.mp hnodup).2).1
    refine ⟨l, forward_linked hlinked, hnodup, fun x => ?_⟩
    rw [← hT.mem]
    constructor
    · intro hx
      refine ⟨mem_flatten_of_bucket hl hx, ?_⟩
      unfold Hash.findBucket
      rw [hT.table.filed i l hl x hx]
    · rintro ⟨hx, hbucket⟩
      obtain ⟨j, k, hk, hx⟩ := exists_bucket_of_mem hx
      have hj := bucketAt_inj hbucket
      rw [hT.table.filed j k hk x hx] at hj
      rw [hj, hl] at hk
      cases hk
      exact hx
  iterate := by
    obtain ⟨-, B, hT⟩ := hS
    exact ⟨B.flatten, hT.table.iterate, hT.visits⟩
  apply action haction := by
    obtain ⟨-, B, hT⟩ := hS
    obtain ⟨m', happly, -⟩ := hT.table.apply haction
    exact ⟨m', B.flatten, happly, hT.visits⟩

/-- **A hash table is a set of inequivalent elements.** In every state that is reached the table
represents the set that the operations have led to, and every operation that may follow returns
what it returns on the set, and leads on to what it leaves. -/
theorem hash_refines_set (hless : StrictWeakOrder less)
    (hhash : ∀ a b, less a b = false → less b a = false → hash a = hash b)
    (hreach : Reached hash less s S) :
    Sound hash less s S ∧ ∀ op malloc, Allowed less s S op →
      MallocOk malloc s.table (liveIn S op) →
        ∃ s' r elems S', op.exec hash less malloc s = .ok (s', r, elems) ∧
          SetEffect less s.key S op r elems S' ∧ Reached hash less s' S' := by
  have hS := hreach.inOrder hless hhash
  refine ⟨hS.sound, fun op malloc hop hmalloc => ?_⟩
  obtain ⟨s', r, elems, S', hexec, heffect, -⟩ := op_follows hless hhash hS hop hmalloc
  exact ⟨s', r, elems, S', hexec, heffect, .call hreach hop hmalloc hexec heffect⟩

/-- A table of numbers, each its own key. -/
def sampleStart : HashState Nat :=
  match Hash.init (fun size => if size = 64 then some 4096 else none) (fun _ => 0) with
  | .ok (some (table, mem)) => ⟨table, mem, id⟩
  | _ => ⟨⟨0, 4, 4096⟩, fun _ => 0, id⟩

/-- The state behind a call without memory for more buckets. -/
def sampleCall (s : HashState Nat) (op : HashOp) : HashState Nat :=
  match op.exec UInt32.ofNat (fun a b => decide (a < b)) (fun _ => none) s with
  | .ok (s', _) => s'
  | .error _ => s

def sampleOne : HashState Nat := sampleCall sampleStart (.insert 8192)

def sampleTwo : HashState Nat := sampleCall sampleOne (.insert 8208)

/-- Two numbers are inserted, and the first is deleted again. -/
theorem hash_refines_set_delete :
    Reached UInt32.ofNat (fun a b => decide (a < b)) sampleTwo {8208, 8192} ∧
      Sound UInt32.ofNat (fun a b => decide (a < b)) (sampleCall sampleTwo (.delete 8192))
        {8208} := by
  have hless : StrictWeakOrder fun a b : Nat => decide (a < b) := by
    refine ⟨fun a b h => ?_, fun a b c h₁ h₂ => ?_⟩
    · simp only [decide_eq_true_eq, decide_eq_false_iff_not] at h ⊢
      omega
    · simp only [decide_eq_false_iff_not] at h₁ h₂ ⊢
      omega
  have hhash : ∀ a b : Nat, decide (a < b) = false → decide (b < a) = false →
      UInt32.ofNat a = UInt32.ofNat b := by
    intro a b h₁ h₂
    simp only [decide_eq_false_iff_not] at h₁ h₂
    rw [show a = b by omega]
  have hstart : Reached UInt32.ofNat (fun a b => decide (a < b)) sampleStart ∅ := by
    refine @Reached.init _ _ _ (fun size => if size = 64 then some 4096 else none) (fun _ => 0) _ _
      id (fun size a ha => ?_) rfl
    split_ifs at ha
    cases ha
    omega
  -- each call has the effect that the theorem says
  have hcall : ∀ {s : HashState Nat} {S : Finset Nat} (op : HashOp),
      Reached UInt32.ofNat (fun a b => decide (a < b)) s S →
      Allowed (fun a b => decide (a < b)) s S op →
      ∃ r elems S', SetEffect (fun a b => decide (a < b)) s.key S op r elems S' ∧
        Reached UInt32.ofNat (fun a b => decide (a < b)) (sampleCall s op) S' := by
    intro s S op hreach hop
    obtain ⟨s', r, elems, S', hexec, heffect, hreach'⟩ :=
      (hash_refines_set hless hhash hreach).2 op (fun _ => none) hop nofun
    refine ⟨r, elems, S', heffect, ?_⟩
    unfold sampleCall
    rwa [hexec]
  have hone : Reached UInt32.ofNat (fun a b => decide (a < b)) sampleOne {8192} := by
    obtain ⟨r, elems, S', heffect, hreach⟩ := hcall (.insert 8192) hstart
      (.inr ⟨by decide, .inr (by decide +kernel), nofun⟩)
    cases heffect with
    | inserted => exact hreach
    | present hold => exact absurd hold.1 (Finset.notMem_empty _)
  have htwo : Reached UInt32.ofNat (fun a b => decide (a < b)) sampleTwo {8208, 8192} := by
    obtain ⟨r, elems, S', heffect, hreach⟩ := hcall (.insert 8208) hone
      (.inr ⟨by decide, .inr (by decide +kernel), by simp [CellsApart]⟩)
    cases heffect with
    | inserted => exact hreach
    | present hold =>
        obtain ⟨hmem, hequal⟩ := hold
        rw [Finset.mem_singleton.mp hmem] at hequal
        exact absurd hequal.1 (by decide +kernel)
  obtain ⟨r, elems, S', heffect, hreach⟩ := hcall (.delete 8192) htwo trivial
  refine ⟨htwo, ?_⟩
  cases heffect with
  | absent hnone =>
      exact absurd ⟨by decide +kernel, by decide +kernel⟩ (hnone 8192 (by decide))
  | @deleted _ found hfound =>
      obtain rfl : found = 8192 := by
        have hmem := hfound.1
        simp only [Finset.mem_insert, Finset.mem_singleton] at hmem
        refine hmem.resolve_left fun heq => ?_
        rw [heq] at hfound
        exact absurd hfound.2.2 (by decide +kernel)
      exact (hash_refines_set hless hhash hreach).1

end OsTools.Kernel

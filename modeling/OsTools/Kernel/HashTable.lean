import Mathlib.Data.List.Perm.Basic
import OsTools.Kernel.Hash
import OsTools.Kernel.Lists
/-!
# OsTools.Kernel.HashTable

A hash table in memory: `bucketLists base B` are the lists of an array of buckets with the
contents `B`, and `Table` says that a table has these buckets and that each element is in the
bucket that its hash selects. Searching, inserting and removing an element have one lemma each
on the contents.

## Proof shape

A table is an instance of `Lists`: the buckets are some of the lists in memory, at addresses
that a formula gives (`bucketLists`). What `Kernel.Lists` says of a push, a removal and a
traversal is then said of a bucket by `HasBuckets.put`, and the rest of the table is
untouched. `Filed` is the invariant that makes a search in one bucket a search in the table.
-/

namespace OsTools.Kernel

open Mem

/-- The lists of the buckets at `base`, with the contents `B`. -/
def bucketLists (base : Nat) (B : List (List Nat)) : Lists := fun a =>
  if base ≤ a ∧ (a - base) % 16 = 0 then B[(a - base) / 16]? else none

/-- The buckets at `base` are among the lists `w`, with the contents `B`. -/
def HasBuckets (w : Lists) (base : Nat) (B : List (List Nat)) : Prop :=
  ∀ i l, B[i]? = some l → w (bucketAt base i) = some l

/-- Each element is in the bucket with the index `idx`. -/
def Filed (idx : Nat → Nat) (B : List (List Nat)) : Prop :=
  ∀ i l, B[i]? = some l → ∀ x ∈ l, idx x = i

variable {m m' : Mem} {w w' : Lists} {base a e i j x : Nat} {B : List (List Nat)} {l : List Nat}

/-! ### Arrays of buckets -/

theorem bucketAt_inj (h : bucketAt base i = bucketAt base j) : i = j := by
  unfold bucketAt at h
  omega

theorem bucketLists_bucketAt (base : Nat) (B : List (List Nat)) (i : Nat) :
    bucketLists base B (bucketAt base i) = B[i]? := by
  have hle : base ≤ bucketAt base i ∧ (bucketAt base i - base) % 16 = 0 := by
    unfold bucketAt
    omega
  have hidx : (bucketAt base i - base) / 16 = i := by
    unfold bucketAt
    omega
  unfold bucketLists
  rw [if_pos hle, hidx]

theorem bucketLists_eq_some :
    bucketLists base B a = some l ↔ ∃ i, a = bucketAt base i ∧ B[i]? = some l := by
  constructor
  · intro h
    unfold bucketLists at h
    by_cases hle : base ≤ a ∧ (a - base) % 16 = 0
    · rw [if_pos hle] at h
      refine ⟨(a - base) / 16, ?_, h⟩
      unfold bucketAt
      omega
    · rw [if_neg hle] at h
      cases h
  · rintro ⟨i, rfl, hi⟩
    rw [bucketLists_bucketAt, hi]

theorem hasBuckets_bucketLists (base : Nat) (B : List (List Nat)) :
    HasBuckets (bucketLists base B) base B := fun i l hi => by rw [bucketLists_bucketAt, hi]

/-- The buckets by themselves. -/
theorem HasBuckets.represents (hB : HasBuckets w base B) (h : Represents m w) :
    Represents m (bucketLists base B) := by
  refine h.mono fun a l ha => ?_
  obtain ⟨i, rfl, hi⟩ := bucketLists_eq_some.mp ha
  exact hB i l hi

theorem HasBuckets.put (hB : HasBuckets w base B) (i : Nat) (l : List Nat) :
    HasBuckets (w.put (bucketAt base i) l) base (B.set i l) := by
  intro j k hj
  rw [List.getElem?_set] at hj
  by_cases hij : i = j
  · subst hij
    rw [if_pos rfl] at hj
    split_ifs at hj
    cases hj
    exact w.put_self _ _
  · rw [if_neg hij] at hj
    rw [w.put_of_ne l fun heq => hij (bucketAt_inj heq).symm]
    exact hB j k hj

theorem Represents.putBucket
    (h : Represents m ((bucketLists base B).put (bucketAt base i) l)) :
    Represents m (bucketLists base (B.set i l)) :=
  ((hasBuckets_bucketLists base B).put i l).represents h

/-- The contents of one bucket are replaced: what is in the others stays. -/
theorem exists_others (hi : B[i]? = some l) :
    ∃ others, B.flatten.Perm (l ++ others) ∧ ∀ l', (B.set i l').flatten.Perm (l' ++ others) := by
  obtain ⟨hlt, rfl⟩ := List.getElem?_eq_some_iff.mp hi
  refine ⟨(B.take i).flatten ++ (B.drop (i + 1)).flatten, ?_, fun l' => ?_⟩
  · have hB : B = B.take i ++ B[i] :: B.drop (i + 1) := by
      rw [List.getElem_cons_drop, List.take_append_drop]
    have hflat : B.flatten = (B.take i).flatten ++ (B[i] ++ (B.drop (i + 1)).flatten) := by
      conv_lhs => rw [hB]
      rw [List.flatten_append, List.flatten_cons]
    rw [hflat]
    exact List.perm_append_comm_assoc _ _ _
  · rw [List.set_eq_take_append_cons_drop, if_pos hlt, List.flatten_append, List.flatten_cons]
    exact List.perm_append_comm_assoc _ _ _

theorem mem_flatten_of_bucket (hi : B[i]? = some l) (hx : x ∈ l) : x ∈ B.flatten :=
  List.mem_flatten.mpr ⟨l, List.mem_of_getElem? hi, hx⟩

theorem exists_bucket_of_mem (hx : x ∈ B.flatten) :
    ∃ (i : Nat) (l : List Nat), B[i]? = some l ∧ x ∈ l := by
  obtain ⟨l, hl, hx⟩ := List.mem_flatten.mp hx
  obtain ⟨i, hi⟩ := List.getElem?_of_mem hl
  exact ⟨i, l, hi, hx⟩

theorem Filed.set {idx : Nat → Nat} (h : Filed idx B) (hl : ∀ x ∈ l, idx x = i) :
    Filed idx (B.set i l) := by
  intro j k hj x hx
  rw [List.getElem?_set] at hj
  by_cases hij : i = j
  · rw [if_pos hij] at hj
    split_ifs at hj
    cases hj
    rw [← hij]
    exact hl x hx
  · rw [if_neg hij] at hj
    exact h j k hj x hx

/-! ### Tables -/

/-- The table `h` in memory has the buckets `B`. -/
structure Table (hash : Nat → UInt32) (h : Hash) (m : Mem) (B : List (List Nat)) : Prop where
  len : B.length = h.bucketCnt
  power : ∃ k, 2 ≤ k ∧ h.bucketCnt = 2 ^ k
  count : h.elemCnt = B.flatten.length
  filed : Filed (h.bucketIdx hash) B
  lists : Represents m (bucketLists h.buckets B)
  room : bucketAt h.buckets h.bucketCnt < 2 ^ 32

/-- A cell apart from the buckets and from the elements `F`. -/
def Hash.Apart (h : Hash) (F : Nat → Prop) (e : Nat) : Prop :=
  (0 < e ∧ e + 8 ≤ 2 ^ 32) ∧ (e + 8 ≤ h.buckets ∨ bucketAt h.buckets h.bucketCnt ≤ e) ∧
    ∀ x, F x → CellsApart e x

theorem bucketIdx_lt {hash : Nat → UInt32} {h : Hash} (hpower : ∃ k, 2 ≤ k ∧ h.bucketCnt = 2 ^ k)
    (e : Nat) : h.bucketIdx hash e < h.bucketCnt := by
  obtain ⟨k, -, hk⟩ := hpower
  unfold Hash.bucketIdx
  rw [hk, Nat.and_two_pow_sub_one_eq_mod]
  exact Nat.mod_lt _ (Nat.two_pow_pos k)

namespace Table

variable {hash : Nat → UInt32} {h : Hash}

theorem bucket (hT : Table hash h m B) (hi : i < h.bucketCnt) :
    ∃ l, B[i]? = some l ∧ Linked m (bucketAt h.buckets i) (listTail (bucketAt h.buckets i)) l := by
  have hlt : i < B.length := by rwa [hT.len]
  refine ⟨B[i], List.getElem?_eq_getElem hlt, hT.lists.linked _ _ ?_⟩
  rw [bucketLists_bucketAt, List.getElem?_eq_getElem hlt]

theorem linked (hT : Table hash h m B) (hi : B[i]? = some l) :
    Linked m (bucketAt h.buckets i) (listTail (bucketAt h.buckets i)) l :=
  hT.lists.linked _ _ (by rw [bucketLists_bucketAt, hi])

theorem apart (hT : Table hash h m B) {l k : List Nat} (hi : B[i]? = some l) (hj : B[j]? = some k)
    (hne : i ≠ j) : ∀ x ∈ cellsOf (bucketAt h.buckets i) l, ∀ y ∈ cellsOf (bucketAt h.buckets j) k,
      CellsApart x y := by
  have hi' : bucketLists h.buckets B (bucketAt h.buckets i) = some l := by
    rw [bucketLists_bucketAt, hi]
  have hj' : bucketLists h.buckets B (bucketAt h.buckets j) = some k := by
    rw [bucketLists_bucketAt, hj]
  exact hT.lists.apart _ l _ k hi' hj' fun heq => hne (bucketAt_inj heq)

theorem bucketCnt_pos (hT : Table hash h m B) : 0 < h.bucketCnt := by
  obtain ⟨k, -, hk⟩ := hT.power
  rw [hk]
  exact Nat.two_pow_pos k

/-- The elements are cells apart from each other. -/
theorem cells (hT : Table hash h m B) : Cells (h.buckets :: B.flatten) := by
  obtain ⟨l₀, hl₀, hlinked₀⟩ := hT.bucket hT.bucketCnt_pos
  refine ⟨List.pairwise_cons.mpr ⟨fun x hx => ?_, List.pairwise_flatten.mpr ⟨fun l hl => ?_, ?_⟩⟩,
    fun x hx => ?_⟩
  · obtain ⟨i, l, hi, hx⟩ := exists_bucket_of_mem hx
    have hl := hT.linked hi
    by_cases hzero : i = 0
    · subst hzero
      have hapart := hl.apart
      rw [List.cons_append] at hapart
      exact (List.pairwise_cons.mp hapart).1 x (List.mem_append_left _ hx)
    · exact hT.apart hl₀ hi (Ne.symm hzero) _ (mem_cellsOf.mpr (Or.inl rfl)) x
        (mem_cellsOf.mpr (Or.inr (Or.inr hx)))
  · obtain ⟨i, hi⟩ := List.getElem?_of_mem hl
    have hcells := (hT.linked hi).cells.apart
    exact (hcells.sublist (List.sublist_append_left _ _)).sublist (List.sublist_cons_self _ _)
  · rw [List.pairwise_iff_getElem]
    intro i j hi hj hij x hx y hy
    exact hT.apart (List.getElem?_eq_getElem hi) (List.getElem?_eq_getElem hj) (by omega) x
      (mem_cellsOf.mpr (Or.inr (Or.inr hx))) y (mem_cellsOf.mpr (Or.inr (Or.inr hy)))
  · rcases List.mem_cons.mp hx with rfl | hx
    · exact hlinked₀.bound _ List.mem_cons_self
    · obtain ⟨i, l, hi, hx⟩ := exists_bucket_of_mem hx
      exact (hT.linked hi).bound x (by simp [hx])

theorem nodup (hT : Table hash h m B) : B.flatten.Nodup := (List.nodup_cons.mp hT.cells.nodup).2

/-- There is no room for more elements. -/
theorem elemCnt_lt (hT : Table hash h m B) : h.elemCnt < 2 ^ 29 := by
  have hlen := hT.cells.length_le
  rw [List.length_cons, ← hT.count] at hlen
  omega

/-- A cell apart from the table. -/
theorem fresh (hT : Table hash h m B) (he : h.Apart (· ∈ B.flatten) e) :
    (bucketLists h.buckets B).Fresh e := by
  refine ⟨he.1, fun a l ha x hx => ?_⟩
  obtain ⟨i, rfl, hi⟩ := bucketLists_eq_some.mp ha
  have hlt : i < h.bucketCnt := by
    rw [← hT.len]
    exact (List.getElem?_eq_some_iff.mp hi).1
  have hblock := he.2.1
  rcases mem_cellsOf.mp hx with rfl | rfl | hx
  · unfold CellsApart bucketAt at *
    omega
  · unfold CellsApart listTail bucketAt at *
    omega
  · exact he.2.2 x (mem_flatten_of_bucket hi hx)

/-- An element is apart from the buckets and from the others. -/
theorem apart_of_mem (hT : Table hash h m B) (hx : x ∈ B.flatten) :
    h.Apart (fun y => y ∈ B.flatten ∧ y ≠ x) x := by
  refine ⟨hT.cells.bound x (List.mem_cons_of_mem _ hx), ?_, fun y hy =>
    hT.cells.cellsApart (List.mem_cons_of_mem _ hx) (List.mem_cons_of_mem _ hy.1) hy.2.symm⟩
  -- it overlaps none of the buckets, and two of them have no gap between them
  have hcell : ∀ i < h.bucketCnt, CellsApart x (bucketAt h.buckets i) ∧
      CellsApart x (listTail (bucketAt h.buckets i)) := by
    intro i hi
    obtain ⟨j, l, hj, hx⟩ := exists_bucket_of_mem hx
    obtain ⟨k, hk, hlinked⟩ := hT.bucket hi
    by_cases hij : i = j
    · subst hij
      cases hk.symm.trans hj
      have hnodup := hlinked.nodup
      rw [List.cons_append] at hnodup
      obtain ⟨hhead, htail⟩ := List.nodup_cons.mp hnodup
      refine ⟨hlinked.cells.cellsApart (by simp [hx]) (by simp) fun heq => hhead ?_,
        hlinked.cells.cellsApart (by simp [hx]) (by simp) ?_⟩
      · rw [← heq]
        exact List.mem_append_left _ hx
      · exact (List.nodup_append.mp htail).2.2 x hx _ (List.mem_singleton_self _)
    · have hapart := hT.apart hj hk (Ne.symm hij) x (mem_cellsOf.mpr (Or.inr (Or.inr hx)))
      exact ⟨hapart _ (mem_cellsOf.mpr (Or.inl rfl)),
        hapart _ (mem_cellsOf.mpr (Or.inr (Or.inl rfl)))⟩
  by_contra hin
  rw [not_or, not_le, not_le] at hin
  unfold bucketAt CellsApart listTail at *
  by_cases hbelow : x < h.buckets
  · have := hcell 0 hT.bucketCnt_pos
    omega
  · have := hcell ((x - h.buckets) / 16) (by omega)
    omega

end Table

/-! ### Searching -/

theorem findLoop_spec (less : Nat → Nat → Bool) {rounds : Nat} {l₁ l₂ : List Nat}
    (hl : Linked m a (listTail a) (l₁ ++ l₂)) (hi : i ∈ (l₂ ++ [listTail a]).head?)
    (hrounds : l₂.length < rounds) :
    Hash.findLoop less m a e rounds i = .ok (l₂.find? fun x => !less x e && !less e x) := by
  induction l₂ generalizing l₁ i rounds with
  | nil =>
      obtain ⟨rounds, rfl⟩ : ∃ k, rounds = k + 1 := ⟨rounds - 1, by simp at hrounds; omega⟩
      obtain rfl : listTail a = i := by simpa using hi
      unfold Hash.findLoop listEnd
      rw [if_neg (list_ne_zero hl), ok_bind, if_pos rfl]
      rfl
  | cons x l₂ ih =>
      obtain ⟨rounds, rfl⟩ : ∃ k, rounds = k + 1 := ⟨rounds - 1, by simp at hrounds; omega⟩
      obtain rfl : x = i := by simpa using hi
      obtain ⟨hne, q, hq, hnext⟩ := listNext_elem hl
      unfold Hash.findLoop listEnd
      rw [if_neg (list_ne_zero hl), ok_bind, if_neg hne, List.find?_cons]
      cases hx : !less x e && !less e x with
      | true => rfl
      | false =>
          have hrest : Linked m a (listTail a) ((l₁ ++ [x]) ++ l₂) := by rwa [List.append_assoc]
          rw [if_neg Bool.false_ne_true, hnext, ok_bind]
          exact ih hrest hq (by simpa using hrounds)

/-- `find_elem`: the first element of the bucket that is equal. -/
theorem findElem_spec (less : Nat → Nat → Bool) (hl : Linked m a (listTail a) l) (e : Nat) :
    Hash.findElem less m a e = .ok (l.find? fun x => !less x e && !less e x) := by
  obtain ⟨q, hq⟩ := exists_behind l (listTail a)
  have hl₀ : Linked m a (listTail a) ([] ++ l) := hl
  have hfirst : m.next a = q := (hl₀.joined rfl hq).1
  unfold Hash.findElem listBegin
  rw [if_neg (list_ne_zero hl), ok_bind, hfirst]
  exact findLoop_spec less hl₀ hq (length_lt_maxCells hl)

namespace Table

variable {hash : Nat → UInt32} {h : Hash}

/-! ### Inserting and removing -/

/-- The table with other contents of one bucket. -/
theorem put (hT : Table hash h m B) {cnt : Nat} {l' : List Nat}
    (hm : Represents m' ((bucketLists h.buckets B).put (bucketAt h.buckets i) l'))
    (hfiled : ∀ x ∈ l', h.bucketIdx hash x = i) (hcnt : cnt = (B.set i l').flatten.length) :
    Table hash { h with elemCnt := cnt } m' (B.set i l') where
  len := by
    rw [List.length_set]
    exact hT.len
  power := hT.power
  count := hcnt
  filed := hT.filed.set hfiled
  lists := hm.putBucket
  room := hT.room

/-- `insert_elem`, into the bucket of the element. -/
theorem insertElem (hT : Table hash h m B) (he : h.Apart (· ∈ B.flatten) e) :
    ∃ m' B', h.insertElem m (h.findBucket hash e) e =
        .ok ({ h with elemCnt := h.elemCnt + 1 }, m') ∧
      Table hash { h with elemCnt := h.elemCnt + 1 } m' B' ∧ B'.flatten.Perm (e :: B.flatten) := by
  obtain ⟨l, hi, -⟩ := hT.bucket (bucketIdx_lt hT.power e)
  have ha : bucketLists h.buckets B (h.findBucket hash e) = some l := by
    unfold Hash.findBucket
    rw [bucketLists_bucketAt, hi]
  obtain ⟨m', hpush, hrep⟩ := hT.lists.pushFront ha (hT.fresh he)
  obtain ⟨others, hperm, hperm'⟩ := exists_others hi
  have hnew : (B.set (h.bucketIdx hash e) (e :: l)).flatten.Perm (e :: B.flatten) :=
    (hperm' (e :: l)).trans (hperm.symm.cons e)
  have hcnt := hT.elemCnt_lt
  refine ⟨m', B.set (h.bucketIdx hash e) (e :: l), ?_, hT.put hrep (fun x hx => ?_) ?_, hnew⟩
  · unfold Hash.insertElem
    rw [hpush, ok_bind, Nat.mod_eq_of_lt (by omega)]
  · rcases List.mem_cons.mp hx with rfl | hx
    · rfl
    · exact hT.filed _ l hi x hx
  · rw [hnew.length_eq, List.length_cons, hT.count]

/-- `remove_elem`. -/
theorem removeElem (hT : Table hash h m B) (he : e ∈ B.flatten) :
    ∃ m' B', h.removeElem m e = .ok ({ h with elemCnt := h.elemCnt - 1 }, m') ∧
      Table hash { h with elemCnt := h.elemCnt - 1 } m' B' ∧
      B.flatten.Perm (e :: B'.flatten) := by
  obtain ⟨i, l, hi, he⟩ := exists_bucket_of_mem he
  obtain ⟨l₁, l₂, rfl⟩ := List.append_of_mem he
  have ha : bucketLists h.buckets B (bucketAt h.buckets i) = some (l₁ ++ ([e] ++ l₂)) := by
    rw [bucketLists_bucketAt, hi]
    rfl
  obtain ⟨m', next, hremove, hrep⟩ := hT.lists.remove ha
  obtain ⟨others, hperm, hperm'⟩ := exists_others hi
  have hnew : B.flatten.Perm (e :: (B.set i (l₁ ++ l₂)).flatten) := by
    refine hperm.trans ?_
    refine List.Perm.trans ?_ ((hperm' (l₁ ++ l₂)).symm.cons e)
    rw [← List.cons_append]
    exact List.perm_middle.append_right others
  have hcnt := hT.elemCnt_lt
  have hlen := hnew.length_eq
  rw [← hT.count, List.length_cons] at hlen
  refine ⟨m', B.set i (l₁ ++ l₂), ?_, hT.put hrep (fun x hx => ?_) (by omega), hnew⟩
  · unfold Hash.removeElem
    have hsub : (h.elemCnt + (2 ^ 32 - 1)) % 2 ^ 32 = h.elemCnt - 1 := by omega
    rw [hremove, ok_bind, hsub]
  · refine hT.filed i _ hi x ?_
    simp only [List.mem_append, List.mem_cons] at hx ⊢
    exact hx.imp_right Or.inr

end Table

end OsTools.Kernel

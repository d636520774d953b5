import OsTools.Kernel.HashTable
/-!
# OsTools.Kernel.Rehash

`rehash` in three parts: the number of buckets that it goes for, the new buckets, and the
elements that are moved over one by one. The elements of the table stay the same, whether there
is memory for the new buckets or not.

## Proof shape

While the elements are moved, each of them is in an old bucket or in a new one. The two
arrays are lists in the same memory, and moving is a `list_remove` from one and a
`list_push_front` to the other. The outer induction is on the old buckets and the inner one
on the elements of a bucket; `NewBuckets` says for the new ones that each element is where
its hash puts it, for as many elements as have been moved.
-/

namespace OsTools.Kernel

open Mem

variable {m m' : Mem} {w w' : Lists} {a b e i k n x : Nat} {B Bn : List (List Nat)} {l : List Nat}
  {hash : Nat → UInt32} {h : Hash}

/-! ### The number of buckets -/

theorem isPowerOf2_iff : isPowerOf2 x = true ↔ x.isPowerOfTwo := by
  unfold isPowerOf2 turnOffLeast1bit
  rw [decide_eq_true_iff]
  exact Nat.ne_zero_and_sub_one_eq_zero_iff_isPowerOfTwo

/-- Turning bits off from the lowest one on leaves the highest one. -/
theorem powerLoop_spec {rounds : Nat} (hlo : 2 ^ k ≤ x) (hhi : x < 2 ^ (k + 1))
    (hrounds : x < 2 ^ k + rounds) : powerLoop rounds x = .ok (2 ^ k) := by
  induction rounds generalizing x with
  | zero => exact absurd hlo (by omega)
  | succ rounds ih =>
      have hx : x ≠ 0 := by
        have := Nat.two_pow_pos k
        omega
      have hlog : x.log2 = k := (Nat.log2_eq_iff hx).mpr ⟨hlo, hhi⟩
      unfold powerLoop
      by_cases hpow : isPowerOf2 x = true
      · rw [if_pos hpow]
        obtain ⟨j, rfl⟩ := isPowerOf2_iff.mp hpow
        rw [Nat.log2_two_pow] at hlog
        rw [hlog]
      · rw [if_neg hpow]
        have htop : (turnOffLeast1bit x).testBit x.log2 = true :=
          Nat.and_sub_one_testBit_log2 hx fun h => hpow (isPowerOf2_iff.mpr h)
        have hle : turnOffLeast1bit x ≤ x - 1 := Nat.and_le_right
        rw [hlog] at htop
        exact ih (Nat.ge_two_pow_of_testBit htop) (by omega) (by omega)

/-- The number of buckets is a power of two, and the array of them fits into memory. -/
theorem newBucketCnt_spec (hcnt : h.elemCnt < 2 ^ 29) :
    ∃ k, 2 ≤ k ∧ k < 28 ∧ h.newBucketCnt = .ok (2 ^ k) := by
  unfold Hash.newBucketCnt BEST_ELEMS_PER_BUCKET
  obtain ⟨x, hx⟩ : ∃ x, x = if h.elemCnt / 2 < 4 then 4 else h.elemCnt / 2 := ⟨_, rfl⟩
  have hrange : 4 ≤ x ∧ x < 2 ^ 28 := by
    rw [hx]
    split_ifs <;> omega
  dsimp only
  rw [← hx]
  have hlo := Nat.log2_self_le (show x ≠ 0 by omega)
  have hhi := @Nat.lt_log2_self x
  refine ⟨x.log2, ?_, ?_, powerLoop_spec hlo hhi (by unfold maxCells; omega)⟩
  · by_contra hsmall
    have hle : 2 ^ (x.log2 + 1) ≤ 2 ^ 2 := Nat.pow_le_pow_right (by decide) (by omega)
    omega
  · by_contra hlarge
    have hle : 2 ^ 28 ≤ 2 ^ x.log2 := Nat.pow_le_pow_right (by decide) (by omega)
    omega

/-! ### New buckets -/

/-- A block of memory apart from the buckets and from the elements `F`. -/
def Hash.BlockApart (h : Hash) (F : Nat → Prop) (a size : Nat) : Prop :=
  (0 < a ∧ a + size < 2 ^ 32) ∧ (a + size ≤ h.buckets ∨ bucketAt h.buckets h.bucketCnt ≤ a) ∧
    ∀ x, F x → a + size ≤ x ∨ x + 8 ≤ a

/-- `list_init` for some buckets. -/
theorem initLoop_spec (base : Nat) (hw : Represents m w)
    (hfresh : ∀ j, i ≤ j → j < i + n →
      w.Fresh (bucketAt base j) ∧ w.Fresh (listTail (bucketAt base j))) :
    ∃ m' w', Hash.initLoop base n i m = .ok m' ∧ Represents m' w' ∧
      (∀ j, i ≤ j → j < i + n → w' (bucketAt base j) = some []) ∧
      ∀ b, (∀ j, i ≤ j → j < i + n → b ≠ bucketAt base j) → w' b = w b := by
  induction n generalizing m w i with
  | zero => exact ⟨m, w, rfl, hw, fun j h₁ h₂ => by omega, fun _ _ => rfl⟩
  | succ n ih =>
      obtain ⟨hhead, htail⟩ := hfresh i (Nat.le_refl i) (by omega)
      obtain ⟨m₁, hinit, hw₁⟩ := hw.init hhead htail
      have hfresh' : ∀ j, i + 1 ≤ j → j < i + 1 + n →
          (w.put (bucketAt base i) []).Fresh (bucketAt base j) ∧
            (w.put (bucketAt base i) []).Fresh (listTail (bucketAt base j)) := by
        intro j h₁ h₂
        obtain ⟨hhead, htail⟩ := hfresh j (by omega) (by omega)
        refine ⟨hhead.put fun x hx => ?_, htail.put fun x hx => ?_⟩
        · rw [mem_cellsOf] at hx
          unfold CellsApart listTail bucketAt at *
          simp only [List.not_mem_nil, or_false] at hx
          omega
        · rw [mem_cellsOf] at hx
          unfold CellsApart listTail bucketAt at *
          simp only [List.not_mem_nil, or_false] at hx
          omega
      obtain ⟨m', w', hloop, hw', hnew, hsame⟩ := ih hw₁ hfresh'
      refine ⟨m', w', ?_, hw', fun j h₁ h₂ => ?_, fun b hb => ?_⟩
      · unfold Hash.initLoop
        rw [hinit]
        exact hloop
      · rcases Nat.eq_or_lt_of_le h₁ with rfl | h₁
        · rw [hsame _ fun j h₁ _ heq => ?_, Lists.put_self]
          have := bucketAt_inj heq
          omega
        · exact hnew j h₁ (by omega)
      · rw [hsame b fun j h₁ h₂ => hb j (by omega) (by omega)]
        exact w.put_of_ne _ (hb i (Nat.le_refl i) (by omega))

/-! ### Moving the elements -/

/-- The new buckets of `h` among the lists `w`, with the elements that they have so far. -/
structure NewBuckets (hash : Nat → UInt32) (h : Hash) (w : Lists) (B : List (List Nat)) :
    Prop where
  len : B.length = h.bucketCnt
  has : HasBuckets w h.buckets B
  filed : Filed (h.bucketIdx hash) B

theorem HasBuckets.put_of_ne {base : Nat} (hB : HasBuckets w base B)
    (hne : ∀ j < B.length, bucketAt base j ≠ a) (l : List Nat) :
    HasBuckets (w.put a l) base B := by
  intro j k hj
  rw [w.put_of_ne l (hne j (List.getElem?_eq_some_iff.mp hj).1)]
  exact hB j k hj

/-- An element goes to the front of its new bucket. -/
theorem NewBuckets.push (hB : NewBuckets hash h w B)
    (hpower : ∃ k, 2 ≤ k ∧ h.bucketCnt = 2 ^ k) (hw : Represents m w) (he : w.Fresh e) :
    ∃ m' l', listPushFront m (h.findBucket hash e) e = .ok m' ∧
      Represents m' (w.put (h.findBucket hash e) l') ∧
      ∃ B', NewBuckets hash h (w.put (h.findBucket hash e) l') B' ∧
        B'.flatten.Perm (e :: B.flatten) := by
  have hlt : h.bucketIdx hash e < B.length := by
    rw [hB.len]
    exact bucketIdx_lt hpower e
  have hi := List.getElem?_eq_getElem hlt
  have ha := hB.has _ _ hi
  obtain ⟨m', hpush, hw'⟩ := hw.pushFront ha he
  obtain ⟨others, hperm, hperm'⟩ := exists_others hi
  refine ⟨m', _, hpush, hw', B.set (h.bucketIdx hash e) (e :: B[h.bucketIdx hash e]),
    ⟨by rw [List.length_set, hB.len], hB.has.put _ _, hB.filed.set fun x hx => ?_⟩,
    (hperm' _).trans (hperm.symm.cons e)⟩
  rcases List.mem_cons.mp hx with rfl | hx
  · rfl
  · exact hB.filed _ _ hi x hx

/-- The elements `l` of the old bucket at `a` are moved to new buckets, one after the other.
By induction on `l`: the first element is removed from the old bucket and pushed in front of
the new one that its hash gives. -/
theorem moveLoop_spec {rounds : Nat} (hpower : ∃ k, 2 ≤ k ∧ h.bucketCnt = 2 ^ k)
    (hw : Represents m w) (hold : w a = some l) (hB : NewBuckets hash h w B)
    (hne : ∀ j < h.bucketCnt, bucketAt h.buckets j ≠ a) (he : e ∈ (l ++ [listTail a]).head?)
    (hrounds : l.length < rounds) :
    ∃ m' w' B', h.moveLoop hash a rounds m e = .ok m' ∧ Represents m' w' ∧
      NewBuckets hash h w' B' ∧ B'.flatten.Perm (l ++ B.flatten) ∧
      ∀ b, b ≠ a → (∀ j < h.bucketCnt, bucketAt h.buckets j ≠ b) → w' b = w b := by
  have hzero := list_ne_zero (hw.linked a l hold)
  induction l generalizing m w B e rounds with
  | nil =>
      obtain ⟨rounds, rfl⟩ : ∃ k, rounds = k + 1 := ⟨rounds - 1, by simp at hrounds; omega⟩
      obtain rfl : listTail a = e := by simpa using he
      refine ⟨m, w, B, ?_, hw, hB, List.Perm.refl _, fun _ _ _ => rfl⟩
      unfold Hash.moveLoop listEnd
      rw [if_neg hzero, ok_bind, if_pos rfl]
  | cons x l ih =>
      obtain ⟨rounds, rfl⟩ : ∃ k, rounds = k + 1 := ⟨rounds - 1, by simp at hrounds; omega⟩
      obtain rfl : x = e := by simpa using he
      have hold' : w a = some ([] ++ ([x] ++ l)) := hold
      obtain ⟨hlast, q, hq, hnext⟩ := listNext_elem (hw.linked a _ hold')
      obtain ⟨m₁, next, hremove, hw₁⟩ := hw.remove hold'
      have hfresh := hw.fresh_removed hold'
      have hB₁ : NewBuckets hash h (w.put a ([] ++ l)) B :=
        ⟨hB.len, hB.has.put_of_ne (fun j hj => hne j (hB.len ▸ hj)) _, hB.filed⟩
      obtain ⟨m₂, l', hpush, hw₂, B₂, hB₂, hperm₂⟩ := hB₁.push hpower hw₁ hfresh
      have hbucket : h.findBucket hash x ≠ a := hne _ (bucketIdx_lt hpower x)
      have hold₂ : ((w.put a ([] ++ l)).put (h.findBucket hash x) l') a = some l := by
        rw [Lists.put_of_ne _ _ (Ne.symm hbucket), Lists.put_self]
        rfl
      obtain ⟨m', w', B', hloop, hw', hB', hperm, hsame⟩ := ih hw₂ hold₂ hB₂ hq
        (by simpa using hrounds)
      refine ⟨m', w', B', ?_, hw', hB', ?_, fun b hba hb => ?_⟩
      · unfold Hash.moveLoop listEnd
        rw [if_neg hzero, ok_bind, if_neg hlast, hnext, ok_bind, hremove, ok_bind]
        dsimp only
        rw [hpush, ok_bind]
        exact hloop
      · refine (hperm.trans (hperm₂.append_left l)).trans ?_
        exact List.perm_middle
      · have hbucket : h.findBucket hash x ≠ b := hb _ (bucketIdx_lt hpower x)
        rw [hsame b hba hb, Lists.put_of_ne _ _ (Ne.symm hbucket), Lists.put_of_ne _ _ hba]

/-- The old buckets from `i` on, with the contents `Bo`. -/
theorem moveBuckets_spec {old : Nat} {Bo : List (List Nat)}
    (hpower : ∃ k, 2 ≤ k ∧ h.bucketCnt = 2 ^ k) (hw : Represents m w)
    (hold : ∀ j l, Bo[j]? = some l → w (bucketAt old (i + j)) = some l)
    (hB : NewBuckets hash h w B)
    (hne : ∀ j < h.bucketCnt, ∀ j', j' < i + Bo.length → bucketAt h.buckets j ≠ bucketAt old j') :
    ∃ m' w' B', h.moveBuckets hash old Bo.length i m = .ok m' ∧ Represents m' w' ∧
      NewBuckets hash h w' B' ∧ B'.flatten.Perm (Bo.flatten ++ B.flatten) := by
  induction Bo generalizing m w B i with
  | nil => exact ⟨m, w, B, rfl, hw, hB, List.Perm.refl _⟩
  | cons l Bo ih =>
      have ha : w (bucketAt old i) = some l := hold 0 l rfl
      have hl := hw.linked _ _ ha
      have hl₀ : Linked m (bucketAt old i) (listTail (bucketAt old i)) ([] ++ l) := hl
      obtain ⟨q, hq⟩ := exists_behind l (listTail (bucketAt old i))
      have hfirst : m.next (bucketAt old i) = q := (hl₀.joined rfl hq).1
      obtain ⟨m₁, w₁, B₁, hloop, hw₁, hB₁, hperm₁, hsame⟩ := moveLoop_spec hpower hw ha hB
        (fun j hj => hne j hj i (by simp)) hq (length_lt_maxCells hl)
      have hold₁ : ∀ j k, Bo[j]? = some k → w₁ (bucketAt old (i + 1 + j)) = some k := by
        intro j k hj
        have hlt : j < Bo.length := (List.getElem?_eq_some_iff.mp hj).1
        rw [hsame _ (fun heq => ?_) fun j' hj' => hne j' hj' _ (by simp; omega)]
        · rw [Nat.add_assoc, Nat.add_comm 1 j]
          exact hold (j + 1) k hj
        · have := bucketAt_inj heq
          omega
      obtain ⟨m', w', B', hrest, hw', hB', hperm⟩ := ih hw₁ hold₁ hB₁
        fun j hj j' hj' => hne j hj j' (by simp; omega)
      refine ⟨m', w', B', ?_, hw', hB', ?_⟩
      · rw [List.length_cons]
        unfold Hash.moveBuckets listBegin
        rw [if_neg (list_ne_zero hl), ok_bind, hfirst, hloop]
        exact hrest
      · rw [List.flatten_cons]
        refine (hperm.trans (hperm₁.append_left _)).trans ?_
        rw [← List.append_assoc]
        exact List.perm_append_comm.append_right _

/-! ### All of it -/

/-- `rehash`: the same elements are in the table. If the number of buckets is right already,
or `malloc` has no memory, nothing is done; otherwise the new buckets are initialised and the
old ones emptied into them. -/
theorem Table.rehash {malloc : Nat → Option Nat} (hT : Table hash h m B)
    (hmalloc : ∀ size a, malloc size = some a → h.BlockApart (· ∈ B.flatten) a size) :
    ∃ h' m' B', Hash.rehash hash malloc h m = .ok (h', m') ∧ Table hash h' m' B' ∧
      B'.flatten.Perm B.flatten := by
  obtain ⟨k, hk, hk', hcnt⟩ := newBucketCnt_spec hT.elemCnt_lt
  unfold Hash.rehash
  rw [hcnt, ok_bind]
  by_cases hsame : 2 ^ k = h.bucketCnt
  · rw [if_pos hsame]
    exact ⟨h, m, B, rfl, hT, List.Perm.refl _⟩
  rw [if_neg hsame]
  cases hblock : malloc (16 * 2 ^ k % 2 ^ 32) with
  | none => exact ⟨h, m, B, rfl, hT, List.Perm.refl _⟩
  | some new =>
      have hsize : 16 * 2 ^ k % 2 ^ 32 = 16 * 2 ^ k := by
        have : 2 ^ k < 2 ^ 28 := Nat.pow_lt_pow_right (by decide) hk'
        omega
      rw [hsize] at hblock
      obtain ⟨⟨hpos, hroom⟩, hold, helems⟩ := hmalloc _ _ hblock
      -- the new array is apart from all the lists of the table
      have hfresh : ∀ j < 2 ^ k, ∀ c, c = bucketAt new j ∨ c = listTail (bucketAt new j) →
          (bucketLists h.buckets B).Fresh c := by
        intro j hj c hc
        refine hT.fresh ⟨?_, ?_, fun x hx => ?_⟩
        · unfold listTail bucketAt at hc
          omega
        · unfold listTail bucketAt at *
          omega
        · have := helems x hx
          unfold CellsApart listTail bucketAt at *
          omega
      obtain ⟨m₁, w₁, hinit, hw₁, hnew, hother⟩ := initLoop_spec (i := 0) (n := 2 ^ k) new hT.lists
        fun j _ hj => ⟨hfresh j (by omega) _ (Or.inl rfl), hfresh j (by omega) _ (Or.inr rfl)⟩
      have hapart : ∀ j < 2 ^ k, ∀ j' < h.bucketCnt, bucketAt new j ≠ bucketAt h.buckets j' := by
        intro j hj j' hj'
        unfold bucketAt at *
        omega
      have hold₁ : ∀ j l, B[j]? = some l → w₁ (bucketAt h.buckets (0 + j)) = some l := by
        intro j l hj
        have hlt : j < h.bucketCnt := by
          rw [← hT.len]
          exact (List.getElem?_eq_some_iff.mp hj).1
        rw [Nat.zero_add, hother _ fun j' _ hj' => (hapart j' (by omega) j hlt).symm,
          bucketLists_bucketAt, hj]
      -- the new buckets start empty, and all elements move into them
      have hB₁ : NewBuckets hash { h with buckets := new, bucketCnt := 2 ^ k } w₁
          (List.replicate (2 ^ k) []) := by
        refine ⟨List.length_replicate, fun j l hj => ?_, fun j l hj x hx => ?_⟩
        · rw [List.getElem?_replicate] at hj
          split_ifs at hj with hlt
          cases hj
          exact hnew j (Nat.zero_le j) (by omega)
        · rw [List.getElem?_replicate] at hj
          split_ifs at hj
          cases hj
          cases hx
      obtain ⟨m', w', B', hmove, hw', hB', hperm⟩ := moveBuckets_spec ⟨k, hk, rfl⟩ hw₁ hold₁ hB₁
        fun j hj j' hj' => hapart j hj j' (by rw [hT.len] at hj'; omega)
      have hflat : (List.replicate (2 ^ k) ([] : List Nat)).flatten = [] := by simp
      rw [hflat, List.append_nil] at hperm
      refine ⟨{ h with buckets := new, bucketCnt := 2 ^ k }, m', B', ?_,
        ⟨hB'.len, ⟨k, hk, rfl⟩, ?_, hB'.filed, hB'.has.represents hw', ?_⟩, hperm⟩
      · dsimp only
        rw [hinit, ok_bind]
        rw [hT.len] at hmove
        rw [hmove, ok_bind]
      · rw [hperm.length_eq]
        exact hT.count
      · exact hroom

end OsTools.Kernel

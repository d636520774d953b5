import OsTools.Kernel.Rehash
/-!
# OsTools.Kernel.HashWalk

The operations that go through a whole table: `hash_clear`, `hash_apply`, and the iterator with
`hash_first` and `hash_next`. Each comes by the elements in the order in which they are in the
buckets.

The action of `hash_apply` may write to memory, but leaves the buckets and what is in them
alone (`LeavesBuckets`). The destructor of `hash_clear` gets an element that has been taken out of
its bucket, and may do what it likes with it, such as free it: it only has to leave the others
alone (`LeavesOthers`).

## Proof shape

Each of the loops is an induction on the buckets that are left, around an induction on the
elements that are left of a bucket. A call of the action or the destructor is a write to
memory that misses what is left, and `Represents` is kept by such a write.

`hash_next` has a place in a bucket as its state (`AtPlace`), with the elements behind it.
One call either goes to the next of these or, over empty buckets, to the next bucket
(`nextLoop_spec`), so that the elements behind the place are one shorter each time and a
loop with `hash_next` comes by all of them.
-/

namespace OsTools.Kernel

open Mem

/-- What `f` writes to memory is apart from the buckets of `h` and from their elements. -/
def LeavesBuckets (h : Hash) (f : Mem → Nat → Mem) : Prop :=
  ∀ m e B, B.length = h.bucketCnt → Represents m (bucketLists h.buckets B) →
    Represents (f m e) (bucketLists h.buckets B)

/-- What `f` writes to memory when it is called for an element that is in no bucket is apart from
the buckets of `h` and from their elements. -/
def LeavesOthers (h : Hash) (f : Mem → Nat → Mem) : Prop :=
  ∀ m e B, B.length = h.bucketCnt → (bucketLists h.buckets B).Fresh e →
    Represents m (bucketLists h.buckets B) → Represents (f m e) (bucketLists h.buckets B)

variable {m m' : Mem} {base e i n rounds : Nat} {B : List (List Nat)} {l l₁ l₂ : List Nat}
  {hash : Nat → UInt32} {h : Hash} {f : Mem → Nat → Mem}

/-! ### Clearing -/

/-- The first element of a bucket is apart from all that is left when it has been taken out. -/
theorem fresh_front (hm : Represents m (bucketLists base B))
    (ha : bucketLists base B (bucketAt base i) = some (e :: l)) :
    (bucketLists base (B.set i l)).Fresh e := by
  obtain ⟨hbound, hapart⟩ := hm.fresh_removed (show _ = some ([] ++ e :: l) from ha)
  refine ⟨hbound, fun a k hk => hapart a k ?_⟩
  obtain ⟨j, rfl, hj⟩ := bucketLists_eq_some.mp hk
  exact (hasBuckets_bucketLists base B).put i l j k hj

/-- The elements of one bucket are taken out from the front, each before the destructor is
called for it. By induction on what is left. -/
theorem popLoop_spec (hf : LeavesOthers h f) (hB : B.length = h.bucketCnt)
    (hm : Represents m (bucketLists h.buckets B)) (hi : B[i]? = some l)
    (hrounds : l.length < rounds) :
    ∃ m', Hash.popLoop f (bucketAt h.buckets i) rounds m = .ok (m', l) ∧
      Represents m' (bucketLists h.buckets (B.set i [])) := by
  induction l generalizing m B rounds with
  | nil =>
      obtain ⟨rounds, rfl⟩ : ∃ k, rounds = k + 1 := ⟨rounds - 1, by simp at hrounds; omega⟩
      have ha : bucketLists h.buckets B (bucketAt h.buckets i) = some [] := by
        rw [bucketLists_bucketAt, hi]
      obtain ⟨hlt, hget⟩ := List.getElem?_eq_some_iff.mp hi
      refine ⟨m, ?_, ?_⟩
      · unfold Hash.popLoop
        rw [listEmpty_nil (hm.linked _ _ ha), ok_bind]
        rfl
      · rw [← hget, List.set_getElem_self]
        exact hm
  | cons x l ih =>
      obtain ⟨rounds, rfl⟩ : ∃ k, rounds = k + 1 := ⟨rounds - 1, by simp at hrounds; omega⟩
      have ha : bucketLists h.buckets B (bucketAt h.buckets i) = some (x :: l) := by
        rw [bucketLists_bucketAt, hi]
      have hlt := (List.getElem?_eq_some_iff.mp hi).1
      obtain ⟨m₁, hpop, hm₁⟩ := hm.popFront ha
      have hlen : (B.set i l).length = h.bucketCnt := by rw [List.length_set, hB]
      have hi₁ : (B.set i l)[i]? = some l := List.getElem?_set_self hlt
      obtain ⟨m', hloop, hm'⟩ := ih hlen (hf m₁ x _ hlen (fresh_front hm ha) hm₁.putBucket) hi₁
        (by simpa using hrounds)
      rw [List.set_set] at hm'
      refine ⟨m', ?_, hm'⟩
      unfold Hash.popLoop
      rw [listEmpty_ne_nil (hm.linked _ _ ha) (List.cons_ne_nil x l), ok_bind]
      show (listPopFront m (bucketAt h.buckets i) >>= _) = _
      rw [hpop, ok_bind]
      dsimp only
      rw [hloop, ok_bind]

/-- The elements that the destructor is called for, of those from the bucket `i` on. -/
def destroyed (destructor : Option (Mem → Nat → Mem)) (l : List Nat) : List Nat :=
  if destructor.isSome then l else []

/-- The loop of `hash_clear`, with `n` buckets left. Each bucket is emptied from its front,
and an element is handed to the destructor after it was taken out; so the destructor may do
with it what it likes, as long as it leaves the lists that are left as they are. -/
theorem clearLoop_spec {destructor : Option (Mem → Nat → Mem)}
    (hf : ∀ f, destructor = some f → LeavesOthers h f) (hB : B.length = h.bucketCnt)
    (hm : Represents m (bucketLists h.buckets B)) (hn : i + n = B.length) :
    ∃ m' B', Hash.clearLoop destructor h.buckets n i m =
        .ok (m', destroyed destructor (B.drop i).flatten) ∧
      Represents m' (bucketLists h.buckets B') ∧ B'.length = h.bucketCnt ∧
      ∀ j k, B'[j]? = some k → j < i ∧ B[j]? = some k ∨ k = [] := by
  induction n generalizing m B i with
  | zero =>
      refine ⟨m, B, ?_, hm, hB, fun j k hj => ?_⟩
      · have hdrop : (B.drop i).flatten = [] := by
          rw [List.drop_eq_nil_of_le (by omega)]
          rfl
        unfold Hash.clearLoop destroyed
        rw [hdrop, ite_self]
      · have hlt := (List.getElem?_eq_some_iff.mp hj).1
        exact Or.inl ⟨by omega, hj⟩
  | succ n ih =>
      have hlt : i < B.length := by omega
      have hi := List.getElem?_eq_getElem hlt
      have ha : bucketLists h.buckets B (bucketAt h.buckets i) = some B[i] := by
        rw [bucketLists_bucketAt, hi]
      -- what the destructor leaves of the bucket is emptied by `list_init`
      obtain ⟨m₁, k, hpop, hm₁, hk⟩ : ∃ m₁ k, Hash.popAll destructor (bucketAt h.buckets i) m =
            .ok (m₁, destroyed destructor B[i]) ∧
          Represents m₁ (bucketLists h.buckets (B.set i k)) ∧ (B.set i k)[i]? = some k := by
        cases destructor with
        | none =>
            refine ⟨m, B[i], rfl, ?_, List.getElem?_set_self hlt⟩
            rw [List.set_getElem_self]
            exact hm
        | some f =>
            obtain ⟨m₁, hpop, hm₁⟩ := popLoop_spec (hf f rfl) hB hm hi
              (length_lt_maxCells (hm.linked _ _ ha))
            exact ⟨m₁, [], hpop, hm₁, List.getElem?_set_self hlt⟩
      have hbucket : bucketLists h.buckets (B.set i k) (bucketAt h.buckets i) = some k := by
        rw [bucketLists_bucketAt, hk]
      obtain ⟨m₂, hinit, hm₂⟩ := hm₁.reinit hbucket
      have hm₂ := hm₂.putBucket
      rw [List.set_set] at hm₂
      have hlen : (B.set i []).length = h.bucketCnt := by rw [List.length_set, hB]
      obtain ⟨m', B', hloop, hm', hB', hcontents⟩ := ih (i := i + 1) hlen hm₂
        (by rw [List.length_set]; omega)
      rw [List.drop_set_of_lt (Nat.lt_succ_self i)] at hloop
      refine ⟨m', B', ?_, hm', hB', fun j k hj => ?_⟩
      · unfold Hash.clearLoop
        dsimp only
        rw [hpop, ok_bind]
        dsimp only
        rw [hinit, ok_bind, hloop, ok_bind]
        have hdrop : (B.drop i).flatten = B[i] ++ (B.drop (i + 1)).flatten := by
          rw [List.drop_eq_getElem_cons hlt, List.flatten_cons]
        unfold destroyed
        rw [hdrop]
        split_ifs <;> rfl
      · rcases hcontents j k hj with ⟨hlt', hj'⟩ | hk
        · by_cases hij : i = j
          · subst hij
            rw [List.getElem?_set_self hlt] at hj'
            exact Or.inr (Option.some.inj hj').symm
          · rw [List.getElem?_set_ne hij] at hj'
            exact Or.inl ⟨by omega, hj'⟩
        · exact Or.inr hk

/-- `hash_clear`: the table is empty, and the destructor has been called for what was in it. -/
theorem Table.clear {destructor : Option (Mem → Nat → Mem)} (hT : Table hash h m B)
    (hf : ∀ f, destructor = some f → LeavesOthers h f) :
    ∃ m' B', h.clear destructor m = .ok ({ h with elemCnt := 0 }, m', destroyed destructor B.flatten) ∧
      Table hash { h with elemCnt := 0 } m' B' ∧ B'.flatten = [] := by
  obtain ⟨m', B', hloop, hm', hB', hcontents⟩ := clearLoop_spec (i := 0) hf hT.len hT.lists
    (by rw [Nat.zero_add, hT.len])
  have hempty : ∀ j k, B'[j]? = some k → k = [] := fun j k hj =>
    (hcontents j k hj).resolve_left fun hlt => absurd hlt.1 (Nat.not_lt_zero j)
  have hflat : B'.flatten = [] := by
    refine List.flatten_eq_nil_iff.mpr fun k hk => ?_
    obtain ⟨j, hj⟩ := List.getElem?_of_mem hk
    exact hempty j k hj
  refine ⟨m', B', ?_, ⟨hB', hT.power, ?_, fun j k hj x hx => ?_, hm', hT.room⟩, hflat⟩
  · unfold Hash.clear
    rw [hloop]
    rfl
  · rw [hflat]
    rfl
  · rw [hempty j k hj] at hx
    cases hx

theorem clearLoop_none (base n i : Nat) (m : Mem) :
    Hash.clearLoop none base n i m = (Hash.initLoop base n i m >>= fun m => .ok (m, [])) := by
  induction n generalizing i m with
  | zero => rfl
  | succ n ih =>
      unfold Hash.clearLoop Hash.initLoop Hash.popAll
      dsimp only
      rw [ok_bind]
      cases listInit m (bucketAt base i) with
      | error e => rfl
      | ok m =>
          rw [ok_bind, ok_bind, ih]
          dsimp only
          cases Hash.initLoop base n (i + 1) m with
          | error e => rfl
          | ok m => rfl

/-- `hash_init`: an empty table, if there is memory for it. -/
theorem init_spec (hash : Nat → UInt32) {malloc : Nat → Option Nat} (m : Mem)
    (hmalloc : ∀ size a, malloc size = some a → 0 < a ∧ a + size < 2 ^ 32) :
    Hash.init malloc m = .ok none ∨ ∃ h m' B, Hash.init malloc m = .ok (some (h, m')) ∧
      Table hash h m' B ∧ B.flatten = [] := by
  unfold Hash.init
  cases hblock : malloc (16 * 4) with
  | none => exact Or.inl rfl
  | some base =>
      obtain ⟨hpos, hroom⟩ := hmalloc _ _ hblock
      have hnone : Represents m fun _ => none := ⟨nofun, nofun⟩
      obtain ⟨m', w', hinit, hw', hnew, -⟩ := initLoop_spec (i := 0) (n := 4) base hnone
        fun j _ hj => by
          refine ⟨⟨?_, nofun⟩, ⟨?_, nofun⟩⟩
          · unfold bucketAt
            omega
          · unfold listTail bucketAt
            omega
      have hreplicate : ∀ j k, (List.replicate 4 ([] : List Nat))[j]? = some k → j < 4 ∧ k = [] := by
        intro j k hj
        rw [List.getElem?_replicate] at hj
        split_ifs at hj with hlt
        exact ⟨hlt, (Option.some.inj hj).symm⟩
      have hhas : HasBuckets w' base (List.replicate 4 []) := by
        intro j k hj
        obtain ⟨hlt, rfl⟩ := hreplicate j k hj
        exact hnew j (Nat.zero_le j) (by omega)
      refine Or.inr ⟨⟨0, 4, base⟩, m', List.replicate 4 [], ?_, ⟨rfl, ⟨2, Nat.le_refl 2, rfl⟩, rfl,
        fun j k hj x hx => ?_, hhas.represents hw', hroom⟩, rfl⟩
      · unfold Hash.clear
        dsimp only
        rw [clearLoop_none, hinit]
        rfl
      · rw [(hreplicate j k hj).2] at hx
        cases hx

/-! ### Applying an action -/

/-- The action is called for the elements that are left of a bucket. The element behind has been
looked up by then. -/
theorem applyLoop_spec (hf : LeavesBuckets h f) (hB : B.length = h.bucketCnt)
    (hm : Represents m (bucketLists h.buckets B)) (hi : B[i]? = some (l₁ ++ l₂))
    (he : e ∈ (l₂ ++ [listTail (bucketAt h.buckets i)]).head?) (hrounds : l₂.length < rounds) :
    ∃ m', Hash.applyLoop f (bucketAt h.buckets i) rounds m e = .ok (m', l₂) ∧
      Represents m' (bucketLists h.buckets B) := by
  have ha : bucketLists h.buckets B (bucketAt h.buckets i) = some (l₁ ++ l₂) := by
    rw [bucketLists_bucketAt, hi]
  have hl := hm.linked _ _ ha
  induction l₂ generalizing m l₁ e rounds with
  | nil =>
      obtain ⟨rounds, rfl⟩ : ∃ k, rounds = k + 1 := ⟨rounds - 1, by simp at hrounds; omega⟩
      obtain rfl : listTail (bucketAt h.buckets i) = e := by simpa using he
      refine ⟨m, ?_, hm⟩
      unfold Hash.applyLoop listEnd
      rw [if_neg (list_ne_zero hl), ok_bind, if_pos rfl]
  | cons x l₂ ih =>
      obtain ⟨rounds, rfl⟩ : ∃ k, rounds = k + 1 := ⟨rounds - 1, by simp at hrounds; omega⟩
      obtain rfl : x = e := by simpa using he
      obtain ⟨hlast, q, hq, hnext⟩ := listNext_elem hl
      have hshape : l₁ ++ x :: l₂ = (l₁ ++ [x]) ++ l₂ := by simp
      rw [hshape] at hi ha
      have hm₁ := hf m x B hB hm
      obtain ⟨m', hloop, hm'⟩ := ih hm₁ hi hq (by simpa using hrounds) ha (hm₁.linked _ _ ha)
      refine ⟨m', ?_, hm'⟩
      unfold Hash.applyLoop listEnd
      rw [if_neg (list_ne_zero hl), ok_bind, if_neg hlast, hnext, ok_bind, hloop, ok_bind]

/-- The loop of `hash_apply` over the `n` buckets that are left; the action is called for
their elements in order. -/
theorem applyBuckets_spec (hf : LeavesBuckets h f) (hB : B.length = h.bucketCnt)
    (hm : Represents m (bucketLists h.buckets B)) (hn : i + n = B.length) :
    ∃ m', Hash.applyBuckets f h.buckets n i m = .ok (m', (B.drop i).flatten) ∧
      Represents m' (bucketLists h.buckets B) := by
  induction n generalizing m i with
  | zero =>
      refine ⟨m, ?_, hm⟩
      have hdrop : (B.drop i).flatten = [] := by
        rw [List.drop_eq_nil_of_le (by omega)]
        rfl
      unfold Hash.applyBuckets
      rw [hdrop]
  | succ n ih =>
      have hlt : i < B.length := by omega
      have hi : B[i]? = some ([] ++ B[i]) := List.getElem?_eq_getElem hlt
      have ha : bucketLists h.buckets B (bucketAt h.buckets i) = some ([] ++ B[i]) := by
        rw [bucketLists_bucketAt, hi]
      have hl := hm.linked _ _ ha
      obtain ⟨q, hq⟩ := exists_behind B[i] (listTail (bucketAt h.buckets i))
      have hfirst : m.next (bucketAt h.buckets i) = q := (hl.joined rfl hq).1
      obtain ⟨m₁, hloop, hm₁⟩ := applyLoop_spec hf hB hm hi hq (length_lt_maxCells hl)
      obtain ⟨m', hrest, hm'⟩ := ih hm₁ (show i + 1 + n = B.length by omega)
      refine ⟨m', ?_, hm'⟩
      unfold Hash.applyBuckets listBegin
      rw [if_neg (list_ne_zero hl), ok_bind, hfirst, hloop, ok_bind]
      dsimp only
      rw [hrest, ok_bind, List.drop_eq_getElem_cons hlt, List.flatten_cons]

/-- `hash_apply` calls the action for the elements in the order of the buckets. -/
theorem Table.apply (hT : Table hash h m B) (hf : LeavesBuckets h f) :
    ∃ m', h.apply f m = .ok (m', B.flatten) ∧ Table hash h m' B := by
  obtain ⟨m', happly, hm'⟩ := applyBuckets_spec (i := 0) hf hT.len hT.lists
    (by rw [Nat.zero_add, hT.len])
  exact ⟨m', happly, hT.len, hT.power, hT.count, hT.filed, hm', hT.room⟩

/-! ### The iterator -/

/-- The iterator is at a place in the bucket `i`, and `rest` are the elements behind. -/
structure AtPlace (h : Hash) (B : List (List Nat)) (it : Hash.Iterator) (rest : List Nat) :
    Prop where
  hash : it.hash = h
  place : ∃ i l₁ l₂ e, it.bucket = bucketAt h.buckets i ∧ it.elem = some e ∧
    B[i]? = some (l₁ ++ l₂) ∧ e ∈ (bucketAt h.buckets i :: l₁).getLast? ∧
    rest = l₂ ++ (B.drop (i + 1)).flatten

/-- What `hash_next` leads to: an element and a place behind it, or the end. -/
def Next (h : Hash) (B : List (List Nat)) (it : Hash.Iterator) : List Nat → Prop
  | [] => it.elem = none
  | e :: rest => it.elem = some e ∧ AtPlace h B it rest

/-- The loop of `hash_next` goes on over empty buckets, one a round. It ends at the first
bucket that has an element, or behind the last bucket; the rounds are bounded by the buckets
that are left. -/
theorem nextLoop_spec (hT : Table hash h m B) (hi : B[i]? = some (l₁ ++ l₂))
    (he : e ∈ (l₂ ++ [listTail (bucketAt h.buckets i)]).head?)
    (hrounds : B.length < i + 1 + rounds) :
    ∃ it, Hash.nextLoop m h rounds (bucketAt h.buckets i) e = .ok it ∧
      Next h B it (l₂ ++ (B.drop (i + 1)).flatten) := by
  induction rounds generalizing i l₁ l₂ e with
  | zero =>
      have hlt := (List.getElem?_eq_some_iff.mp hi).1
      exact absurd hrounds (by omega)
  | succ rounds ih =>
      have hl := hT.linked hi
      cases l₂ with
      | cons x l₂ =>
          obtain rfl : x = e := by simpa using he
          -- the bucket goes on
          obtain ⟨hlast, -⟩ := listNext_elem hl
          refine ⟨⟨h, bucketAt h.buckets i, some x⟩, ?_, rfl, rfl, i, l₁ ++ [x], l₂, x, rfl, rfl,
            ?_, ?_, rfl⟩
          · unfold Hash.nextLoop listEnd
            rw [if_neg (list_ne_zero hl), ok_bind, if_neg hlast]
          · rw [hi]
            simp
          · rw [← List.cons_append, List.getLast?_concat]
            rfl
      | nil =>
          obtain rfl : listTail (bucketAt h.buckets i) = e := by simpa using he
          have hlt : i < B.length := (List.getElem?_eq_some_iff.mp hi).1
          have hlen := hT.len
          have hroom := hT.room
          -- the bucket is at its end: the next one is the next element of the array
          have hnext : bucketAt (bucketAt h.buckets i) 1 = bucketAt h.buckets (i + 1) := by
            unfold bucketAt
            omega
          have hmod : ∀ j, j ≤ h.bucketCnt →
              bucketAt h.buckets j % 2 ^ 32 = bucketAt h.buckets j := by
            intro j hj
            unfold bucketAt at *
            omega
          unfold Hash.nextLoop listEnd
          rw [if_neg (list_ne_zero hl), ok_bind, if_pos rfl, hnext, hmod _ (by omega),
            hmod _ (Nat.le_refl _)]
          dsimp only
          by_cases hend : i + 1 = B.length
          · rw [if_pos (by unfold bucketAt; omega)]
            refine ⟨_, rfl, ?_⟩
            rw [List.drop_eq_nil_of_le (Nat.le_of_eq hend.symm)]
            rfl
          · have hlt' : i + 1 < B.length := by omega
            have hi' : B[i + 1]? = some ([] ++ B[i + 1]) := List.getElem?_eq_getElem hlt'
            have hl' := hT.linked hi'
            obtain ⟨q, hq⟩ := exists_behind B[i + 1] (listTail (bucketAt h.buckets (i + 1)))
            have hfirst : m.next (bucketAt h.buckets (i + 1)) = q := (hl'.joined rfl hq).1
            rw [if_neg (by unfold bucketAt; omega)]
            unfold listBegin
            rw [if_neg (list_ne_zero hl'), ok_bind, hfirst, List.drop_eq_getElem_cons hlt',
              List.flatten_cons, List.nil_append]
            exact ih hi' hq (by omega)

/-- `hash_next`. -/
theorem next_spec {it : Hash.Iterator} {rest : List Nat} (hT : Table hash h m B)
    (hit : AtPlace h B it rest) : ∃ it', Hash.next m it = .ok it' ∧ Next h B it' rest := by
  obtain ⟨rfl, i, l₁, l₂, e, hbucket, helem, hi, he, rfl⟩ := hit
  obtain ⟨q, hq⟩ := exists_behind l₂ (listTail (bucketAt it.hash.buckets i))
  obtain ⟨it', hloop, hnext⟩ := nextLoop_spec hT hi hq
    (show B.length < i + 1 + (it.hash.bucketCnt + 1) by rw [hT.len]; omega)
  refine ⟨it', ?_, hnext⟩
  unfold Hash.next
  rw [helem]
  dsimp only
  rw [listNext_place (hT.linked hi) he hq, ok_bind, hbucket]
  exact hloop

/-- The loop comes by the elements behind the place. -/
theorem iterLoop_spec {it : Hash.Iterator} {rest : List Nat} (hT : Table hash h m B)
    (hit : AtPlace h B it rest) (hrounds : rest.length < rounds) :
    Hash.iterLoop m rounds it = .ok rest := by
  induction rest generalizing it rounds with
  | nil =>
      obtain ⟨rounds, rfl⟩ : ∃ k, rounds = k + 1 := ⟨rounds - 1, by simp at hrounds; omega⟩
      obtain ⟨it', hnext, hend⟩ := next_spec hT hit
      have hend : it'.elem = none := hend
      unfold Hash.iterLoop
      rw [hnext, ok_bind, hend]
  | cons e rest ih =>
      obtain ⟨rounds, rfl⟩ : ∃ k, rounds = k + 1 := ⟨rounds - 1, by simp at hrounds; omega⟩
      obtain ⟨it', hnext, helem, hplace⟩ := next_spec hT hit
      unfold Hash.iterLoop
      rw [hnext, ok_bind, helem]
      dsimp only
      rw [ih hplace (by simpa using hrounds), ok_bind]

/-- `hash_first` and `hash_next` come by the elements in the order of the buckets. -/
theorem Table.iterate (hT : Table hash h m B) : h.iterate m = .ok B.flatten := by
  obtain ⟨l, hi, hl⟩ := hT.bucket hT.bucketCnt_pos
  have hplace : AtPlace h B ⟨h, h.buckets, some h.buckets⟩ B.flatten := by
    refine ⟨rfl, 0, [], l, h.buckets, rfl, rfl, hi, rfl, ?_⟩
    obtain ⟨hlt, rfl⟩ := List.getElem?_eq_some_iff.mp hi
    have hdrop := List.drop_eq_getElem_cons hlt
    rw [List.drop_zero] at hdrop
    conv_lhs => rw [hdrop]
    rw [List.flatten_cons]
  have hzero : h.buckets ≠ 0 := list_ne_zero hl
  unfold Hash.iterate Hash.first
  rw [if_neg hzero, ok_bind]
  refine iterLoop_spec hT hplace ?_
  rw [← hT.count]
  exact hT.elemCnt_lt

end OsTools.Kernel

import OsTools.MmAlloc.Realloc
/-!
# OsTools.MmAlloc.Program

Whole programs. `Heap.blocks` follows `next` from `base`; `Alive` ties the list
of blocks to the live allocations, and `Effect` says what one step of a program
makes of both. A program is safe as long as no call takes memory from `sbrk`
while `end` is not the last block (`EndReliable`).

## Proof shape

`Alive` is the invariant on a heap in use: there is a list of blocks, and every live
allocation is the payload of an allocated one of its own. `step_effect` gives each step one
of the constructors of `Effect`, which speaks of lists only, and the two properties of a
step, that the invariant goes on (`Effect.alive`) and that other allocations keep their
bytes (`Effect.spares`), are by cases on it.

Before the first call there is no list, and after a first call that failed there will be
none. `Inv` joins these two to `Alive`, so that the theorem is about all runs.
-/

namespace OsTools.MmAlloc

open Heap

variable {h : Heap} {xs ys xs' ys' bs bs' : List Blk} {b c m m' : Blk} {size : Nat} {w w' : World}

/-! ### The list of blocks -/

namespace Heap

/-- The blocks met on the way from `a` along `next`. -/
def walk (h : Heap) : Nat → Nat → List Blk
  | 0, _ => []
  | fuel + 1, a =>
      if a = NULL ∨ ¬ h.accessible a 32 then []
      else
        let d := h.hdr a
        ⟨a, d.size, decide (d.free = 1)⟩ :: walk h fuel d.next

def blocks (h : Heap) : List Blk := h.walk (h.brk - h.lo + 1) h.base

end Heap

theorem walk_eq (hs : Shape h (xs ++ ys)) {fuel : Nat} (hfuel : ys.length < fuel) :
    h.walk fuel (headOr NULL ys) = ys := by
  induction ys generalizing xs fuel with
  | nil =>
      cases fuel with
      | zero => rfl
      | succ fuel =>
          rw [headOr_nil, walk]
          exact if_pos (Or.inl rfl)
  | cons b ys ih =>
      cases fuel with
      | zero => exact absurd hfuel (by simp)
      | succ fuel =>
          have hv : h.Valid b.addr := hs.valid (by simp)
          have hacc : h.accessible b.addr 32 := Or.inr hv
          have hs' : Shape h ((xs ++ [b]) ++ ys) := by simpa using hs
          rw [headOr_cons, walk, if_neg (by simp [hacc, hs.addr_ne_null (b := b) (by simp)]),
            hs.header]
          dsimp only
          rw [ih hs' (by simpa using hfuel)]
          cases b with
          | mk addr size free => cases free <;> rfl

theorem Shape.blocks_eq (hs : Shape h bs) : h.blocks = bs := by
  have hlen := hs.tiles.length_le
  unfold Heap.blocks
  rw [hs.base]
  exact @walk_eq _ [] _ hs _ (by omega)

/-! ### The size after merging -/

/-- `if_we_free` in `mm_realloc`: the size of the allocation at `ptr` merged with
its free neighbours. -/
def Heap.mergedSize (h : Heap) (ptr : Nat) : Nat :=
  let d := h.hdr (ptr - 32)
  let gain (q : Nat) := if q ≠ NULL ∧ (h.hdr q).free = 1 then (h.hdr q).size + 32 else 0
  d.size + gain d.prev + gain d.next

/-- The size that the search is told before merging is that of the merged block: the
neighbours are free in the headers just if they are in the list. -/
theorem mergedSize_eq (hs : Shape h (xs ++ b :: ys)) (hl : AbsorbLeft xs b xs' m)
    (hr : AbsorbRight m ys m' ys') : h.mergedSize (b.addr + 32) = m'.size := by
  unfold Heap.mergedSize
  rw [Nat.add_sub_cancel, hs.header]
  dsimp only
  have hleft : b.size + (if lastOr NULL xs ≠ NULL ∧ (h.hdr (lastOr NULL xs)).free = 1 then
      (h.hdr (lastOr NULL xs)).size + 32 else 0) = m.size := by
    cases hl with
    | stay hp =>
        rcases List.eq_nil_or_concat xs with rfl | ⟨zs, p, rfl⟩
        · rfl
        · rw [List.concat_eq_append] at hs hp ⊢
          have hs' : Shape h (zs ++ p :: b :: ys) := by simpa using hs
          have hlast : lastOr NULL (zs ++ [p]) = p.addr := by simp
          rw [hlast, hs'.header, hp p (by simp)]
          simp
    | @merge _ p _ hp =>
        have hs' : Shape h (xs' ++ p :: b :: ys) := by simpa using hs
        have hlast : lastOr NULL (xs' ++ [p]) = p.addr := by simp
        rw [hlast, hs'.header, hp, if_pos ⟨hs'.addr_ne_null (by simp), rfl⟩]
        simp only [Blk.merge]
        omega
  rw [hleft]
  cases hr with
  | stay hn =>
      cases ys with
      | nil => rfl
      | cons n ys =>
          have hs' : Shape h ((xs ++ [b]) ++ n :: ys) := by simpa using hs
          rw [headOr_cons, hs'.header, hn n rfl]
          simp
  | @merge n _ hn =>
      have hs' : Shape h ((xs ++ [b]) ++ n :: ys') := by simpa using hs
      rw [headOr_cons, hs'.header, hn, if_pos ⟨hs'.addr_ne_null (by simp), rfl⟩]
      simp only [Blk.merge]
      omega

/-! ### Live allocations -/

/-- Every live allocation is the payload of an allocated block of its own. -/
structure Holds (bs : List Blk) (live : List (Nat × Nat)) : Prop where
  nodup : (live.map Prod.fst).Nodup
  block : ∀ r ∈ live, ∃ d ∈ bs, d.free = false ∧ r.1 = d.addr + 32 ∧ r.2 ≤ d.size

/-- A heap in use, with the blocks `bs`. -/
structure Alive (w : World) (bs : List Blk) : Prop where
  first : w.heap.first = false
  ne_nil : bs ≠ []
  shape : Shape w.heap bs
  holds : Holds bs w.live

namespace Holds

variable {live : List (Nat × Nat)} {p : Nat}

/-- A pointer that may be passed to `mm_free` is `NULL` or a block's payload. -/
theorem split (hh : Holds bs live) (hp : p ∈ live.map Prod.fst) :
    ∃ xs b ys, bs = xs ++ b :: ys ∧ b.free = false ∧ p = b.addr + 32 := by
  obtain ⟨r, hr, rfl⟩ := List.mem_map.mp hp
  obtain ⟨d, hd, hf, hrd, -⟩ := hh.block r hr
  obtain ⟨xs, ys, rfl⟩ := List.append_of_mem hd
  exact ⟨xs, d, ys, rfl, hf, hrd⟩

/-- The other allocations keep their blocks when `p` is given up. -/
theorem drop (hh : Holds bs live) (hp : p = b.addr + 32)
    (hmem : ∀ d ∈ bs, d.free = false → d ≠ b → d ∈ bs') :
    Holds bs' (live.filter fun r => r.1 ≠ p) := by
  refine ⟨hh.nodup.sublist (List.filter_sublist.map _), fun r hr => ?_⟩
  obtain ⟨hr, hne⟩ := List.mem_filter.mp hr
  obtain ⟨d, hd, hf, hrd, hsz⟩ := hh.block r hr
  refine ⟨d, hmem d hd hf ?_, hf, hrd, hsz⟩
  rintro rfl
  simp [hrd, hp] at hne

/-- A new allocation in a block of its own. -/
theorem add (hh : Holds bs' live) (hc : c ∈ bs' ∧ c.free = false ∧ size ≤ c.size)
    (hne : ∀ r ∈ live, r.1 ≠ c.addr + 32) : Holds bs' ((c.addr + 32, size) :: live) := by
  refine ⟨?_, fun r hr => ?_⟩
  · refine List.nodup_cons.mpr ⟨fun hm => ?_, hh.nodup⟩
    obtain ⟨r, hr, hrc⟩ := List.mem_map.mp hm
    exact hne r hr hrc
  · rcases List.mem_cons.mp hr with rfl | hr
    · exact ⟨c, hc.1, hc.2.1, rfl, hc.2.2⟩
    · exact hh.block r hr

end Holds

/-! ### Calls -/

/-- `mm_realloc (ptr, 0)` is `mm_free (ptr)` and `mm_realloc (NULL, size)` is
`mm_malloc (size)`. -/
def Call.normal : Call → Call
  | .realloc ptr size ok stack =>
      if size = 0 then .free ptr
      else if ptr = NULL then .malloc size ok
      else .realloc ptr size ok stack
  | call => call

/-- The step is about the allocation `r`: it frees, reallocates or writes it. -/
def Call.Concerns (r : Nat × Nat) : Call → Prop
  | .malloc _ _ => False
  | .realloc ptr _ _ _ => r.1 = ptr
  | .free ptr => r.1 = ptr
  | .write addr _ => r.1 ≤ addr ∧ addr < r.1 + r.2

instance (r : Nat × Nat) : (call : Call) → Decidable (call.Concerns r)
  | .malloc _ _ => inferInstanceAs (Decidable False)
  | .realloc ptr _ _ _ => inferInstanceAs (Decidable (r.1 = ptr))
  | .free ptr => inferInstanceAs (Decidable (r.1 = ptr))
  | .write addr _ => inferInstanceAs (Decidable (r.1 ≤ addr ∧ addr < r.1 + r.2))

namespace World

/-- `mm_malloc (size)` would find no block and get memory from `sbrk`. -/
def Grows (w : World) (size : Nat) (ok : Bool) : Prop :=
  size ≠ 0 ∧ (∀ d ∈ w.heap.blocks, d.fits size = false) ∧
    (w.heap.sbrk (add64 size sizeofBlock) ok).isSome

instance (w : World) (size : Nat) (ok : Bool) : Decidable (w.Grows size ok) :=
  inferInstanceAs (Decidable (_ ∧ _ ∧ _))

/-- The call would get memory from `sbrk`. -/
def TakesMemory (w : World) : Call → Prop
  | .malloc size ok => w.Grows size ok
  | .realloc ptr size ok _ => w.heap.mergedSize ptr < size ∧ w.Grows size ok
  | _ => False

instance (w : World) : (call : Call) → Decidable (w.TakesMemory call)
  | .malloc size ok => inferInstanceAs (Decidable (w.Grows size ok))
  | .realloc ptr size ok _ =>
      inferInstanceAs (Decidable (w.heap.mergedSize ptr < size ∧ w.Grows size ok))
  | .free _ => inferInstanceAs (Decidable False)
  | .write _ _ => inferInstanceAs (Decidable False)

/-- Where the call gets memory from `sbrk`, `end` is the last block. -/
def EndReliable (w : World) (call : Call) : Prop :=
  w.TakesMemory call.normal → w.heap.end_ = lastOr NULL w.heap.blocks

instance (w : World) (call : Call) : Decidable (w.EndReliable call) :=
  inferInstanceAs (Decidable (_ → _))

/-- The step changes no byte of an allocation it is not about. -/
def Spares (w : World) (call : Call) (w' : World) : Prop :=
  ∀ r ∈ w.live, ¬ call.Concerns r →
    r ∈ w'.live ∧ ∀ i < r.2, w'.heap.mem (r.1 + i) = w.heap.mem (r.1 + i)

/-- Live allocations are apart from each other, from all block headers, and
within the region. -/
structure Separate (w : World) : Prop where
  disjoint : w.live.Pairwise fun r s => r.1 + r.2 ≤ s.1 ∨ s.1 + s.2 ≤ r.1
  inside : ∀ r ∈ w.live, w.heap.lo ≤ r.1 ∧ r.1 + r.2 ≤ w.heap.brk
  headers : ∀ b ∈ w.heap.blocks, ∀ r ∈ w.live, b.addr + 32 ≤ r.1 ∨ r.1 + r.2 ≤ b.addr

/-- A call that leaves everything as it was. -/
def Idle (w : World) (bs : List Blk) : Call → Prop
  | .malloc _ _ => True
  | .realloc ptr size _ _ => w.heap.mergedSize ptr < size ∧ ∀ d ∈ bs, d.fits size = false
  | .free ptr => ptr = NULL
  | .write _ _ => False

end World

/-- What one step makes of a heap in use. -/
inductive Effect (w : World) (bs : List Blk) : Call → World → List Blk → Prop
  | idle {call : Call} (hidle : w.Idle bs call) : Effect w bs call w bs
  | malloc {size : Nat} {ok : Bool} {h' : Heap} {bs' : List Blk} {c : Blk}
      (hg : Granted w.heap bs size h' bs' c) :
      Effect w bs (.malloc size ok) ⟨h', (c.addr + 32, size) :: w.live⟩ bs'
  | realloc {size : Nat} {ok : Bool} {stack : Nat → UInt8} {h' : Heap} {xs ys bs' : List Blk}
      {b c : Blk} (hbs : bs = xs ++ b :: ys) (hb : b.free = false)
      (hr : Reallocated w.heap xs b ys size h' bs' c) :
      Effect w bs (.realloc (b.addr + 32) size ok stack)
        ⟨h', (c.addr + 32, size) :: w.drop (b.addr + 32)⟩ bs'
  | free {h' : Heap} {xs ys xs' ys' : List Blk} {b m m' : Blk} (hbs : bs = xs ++ b :: ys)
      (hl : AbsorbLeft xs b xs' m) (hr : AbsorbRight m ys m' ys')
      (hf : Freed w.heap bs b h' (xs' ++ m' :: ys'))
      (hend : h'.end_ = (if ys ≠ [] ∧ ys' = [] then m.addr else w.heap.end_)) :
      Effect w bs (.free (b.addr + 32)) ⟨h', w.drop (b.addr + 32)⟩ (xs' ++ m' :: ys')
  | write {addr : Nat} {byte : UInt8} (ho : w.owned addr) :
      Effect w bs (.write addr byte)
        { w with heap := { w.heap with mem := w.heap.mem.blit addr 1 fun _ => byte } } bs

namespace Alive

/-- `NULL` is no live pointer. -/
theorem ne_null (ha : Alive w bs) {r : Nat × Nat} (hr : r ∈ w.live) : r.1 ≠ NULL := by
  obtain ⟨d, -, -, hrd, -⟩ := ha.holds.block r hr
  unfold NULL
  omega

theorem drop_null (ha : Alive w bs) : w.drop NULL = w.live := by
  unfold World.drop
  refine List.filter_eq_self.mpr fun r hr => ?_
  simpa using ha.ne_null hr

/-- `end` is the last block when `mm_realloc` gets memory from `sbrk`. -/
theorem reliable (ha : Alive w (xs ++ b :: ys)) (hl : AbsorbLeft xs b xs' m)
    (hr : AbsorbRight m ys m' ys') (hpos : size ≠ 0) {ok : Bool} {stack : Nat → UInt8}
    (hend : w.EndReliable (.realloc (b.addr + 32) size ok stack)) (hlt : m'.size < size)
    (hnone : ∀ c ∈ xs ++ b :: ys, c.fits size = false)
    (hsome : (w.heap.sbrk (add64 size sizeofBlock) ok).isSome) :
    w.heap.end_ = lastOr NULL (xs ++ b :: ys) := by
  unfold World.EndReliable Call.normal at hend
  dsimp only at hend
  rw [if_neg hpos, if_neg (by unfold NULL; omega), ha.shape.blocks_eq] at hend
  refine hend ⟨?_, hpos, ?_, hsome⟩
  · rwa [mergedSize_eq ha.shape hl hr]
  · rwa [ha.shape.blocks_eq]

/-- `mm_malloc`: it fails and nothing changes, or there is a new live pointer to a block that
was free or is new. -/
theorem step_malloc (ha : Alive w bs) {size : Nat} {ok : Bool}
    (hend : w.Grows size ok → w.heap.end_ = lastOr NULL bs)
    (hstep : w.step (.malloc size ok) = some w') :
    ∃ bs', Effect w bs (.malloc size ok) w' bs' := by
  dsimp only [World.step] at hstep
  split at hstep
  · rename_i hsize
    split at hstep
    · rename_i p h' hrun
      obtain rfl := Option.some.inj hstep
      by_cases hpos : size = 0
      · unfold Heap.mmMalloc at hrun
        rw [if_pos hpos] at hrun
        obtain ⟨rfl, rfl⟩ := Prod.mk.inj (Except.ok.inj hrun)
        rw [if_pos rfl]
        exact ⟨bs, .idle trivial⟩
      · have hrel := fun hnone hsome => hend ⟨hpos, by rwa [ha.shape.blocks_eq], hsome⟩
        rcases mmMalloc_spec ha.shape ha.ne_nil ha.first hsize hpos hrel hrun with
          ⟨rfl, rfl, -⟩ | ⟨bs', c, rfl, hg⟩
        · rw [if_pos rfl]
          exact ⟨bs, .idle trivial⟩
        · rw [if_neg (by unfold NULL; omega)]
          exact ⟨bs', .malloc hg⟩
    · exact absurd hstep (by simp)
  · exact absurd hstep (by simp)

theorem step_free (ha : Alive w bs) {ptr : Nat} (hstep : w.step (.free ptr) = some w') :
    ∃ bs', Effect w bs (.free ptr) w' bs' := by
  dsimp only [World.step] at hstep
  split at hstep
  · rename_i hp
    rcases hp with rfl | hp
    · simp only [Heap.mmFree, ha.drop_null] at hstep
      obtain rfl := Option.some.inj hstep
      exact ⟨bs, .idle rfl⟩
    · obtain ⟨xs, b, ys, rfl, hb, rfl⟩ := ha.holds.split hp
      obtain ⟨xs', m, hl⟩ := exists_absorbLeft xs b
      obtain ⟨m', ys', hr⟩ := exists_absorbRight m ys
      obtain ⟨h', hrun, hfreed, hend, -⟩ := mmFree_freed ha.shape hl hr
      rw [hrun] at hstep
      obtain rfl := Option.some.inj hstep
      exact ⟨_, .free rfl hl hr hfreed hend⟩
  · exact absurd hstep (by simp)

/-- `mm_realloc` of a live pointer to a size that is not 0: it fails, and the old pointer
stays live, or a new one takes its place. -/
theorem step_realloc (ha : Alive w bs) {ptr size : Nat} {ok : Bool} {stack : Nat → UInt8}
    (hpos : size ≠ 0) (hptr : ptr ≠ NULL)
    (hend : w.heap.mergedSize ptr < size ∧ w.Grows size ok → w.heap.end_ = lastOr NULL bs)
    (hstep : w.step (.realloc ptr size ok stack) = some w') :
    ∃ bs', Effect w bs (.realloc ptr size ok stack) w' bs' := by
  dsimp only [World.step] at hstep
  split at hstep
  · rename_i hpre
    obtain ⟨hsize, hp⟩ := hpre
    obtain ⟨xs, b, ys, rfl, hb, rfl⟩ := ha.holds.split (hp.resolve_left hptr)
    obtain ⟨xs', m, hl⟩ := exists_absorbLeft xs b
    obtain ⟨m', ys', hr⟩ := exists_absorbRight m ys
    rw [mergedSize_eq ha.shape hl hr] at hend
    split at hstep
    · rename_i p h' hrun
      obtain rfl := Option.some.inj hstep
      have hrel := fun hsmall hnone hsome =>
        hend ⟨hsmall, hpos, by rwa [ha.shape.blocks_eq], hsome⟩
      rcases mmRealloc_of_malloc ha.shape hb ha.first hl hr hsize hpos stack hrel
        (mmMalloc_of_mmRealloc ha.shape hl hr hpos hrun) with
        ⟨hres, hsmall, hnone⟩ | ⟨h₁, bs', c, hres, hre⟩
      all_goals
        rw [hrun] at hres
        obtain ⟨rfl, rfl⟩ := Prod.mk.inj (Except.ok.inj hres)
      · rw [if_pos rfl]
        refine ⟨_, .idle ⟨?_, hnone⟩⟩
        rwa [mergedSize_eq ha.shape hl hr]
      · rw [if_neg (by unfold NULL; omega)]
        exact ⟨bs', .realloc rfl hb hre⟩
    · exact absurd hstep (by simp)
  · exact absurd hstep (by simp)

/-- **One step** of a program on a heap in use: a call is one of `malloc`, `free` and
`realloc`, where the special cases of `realloc` are those of the other two (`Call.normal`),
and each of them has an effect on the list of blocks and the live pointers. -/
theorem step_effect (ha : Alive w bs) {call : Call} (hend : w.EndReliable call)
    (hstep : w.Step call w') : ∃ bs', Effect w bs call.normal w' bs' := by
  unfold World.EndReliable at hend
  rw [ha.shape.blocks_eq] at hend
  unfold World.Step at hstep
  cases call with
  | malloc size ok => exact ha.step_malloc hend hstep
  | free ptr => exact ha.step_free hstep
  | write addr byte =>
      dsimp only [World.step] at hstep
      split at hstep
      · obtain rfl := Option.some.inj hstep
        exact ⟨bs, .write ‹_›⟩
      · exact absurd hstep (by simp)
  | realloc ptr size ok stack =>
      unfold Call.normal at hend ⊢
      dsimp only at hend ⊢
      split at hend
      · -- `mm_free`
        rename_i hzero
        rw [if_pos hzero]
        refine ha.step_free ?_
        subst hzero
        dsimp only [World.step, Heap.mmRealloc] at hstep ⊢
        split at hstep
        · rename_i hp
          rw [if_pos hp.2]
          cases hrun : w.heap.mmFree ptr with
          | ok h' => simpa [hrun] using hstep
          | error e => simp [hrun, bind, Except.bind] at hstep
        · exact absurd hstep (by simp)
      · rename_i hpos
        rw [if_neg hpos]
        split at hend
        · -- `mm_malloc`
          rename_i hnull
          rw [if_pos hnull]
          refine ha.step_malloc hend ?_
          subst hnull
          dsimp only [World.step, Heap.mmRealloc] at hstep ⊢
          split at hstep
          · rename_i hsize
            rw [if_pos hsize.1]
            simpa only [if_neg hpos, if_pos, ha.drop_null] using hstep
          · exact absurd hstep (by simp)
        · rename_i hnull
          rw [if_neg hnull]
          exact ha.step_realloc hpos hnull hend hstep

end Alive

/-! ### What a step keeps -/

namespace Effect

variable {call : Call}

/-- A heap in use stays one: every live pointer is still the payload of a block in use that is
large enough, and no two of them are of one block. -/
theorem alive (ha : Alive w bs) (he : Effect w bs call w' bs') : Alive w' bs' := by
  cases he with
  | idle _ => exact ha
  | malloc hg =>
      refine ⟨hg.first, hg.grant.ne_nil, hg.shape, Holds.add ⟨ha.holds.nodup, ?_⟩ hg.grant.mem ?_⟩
      · intro r hr
        obtain ⟨d, hd, hf, hrd⟩ := ha.holds.block r hr
        exact ⟨d, hg.grant.mem_of_alloc hd hf, hf, hrd⟩
      · intro r hr heq
        obtain ⟨d, hd, hf, hrd, -⟩ := ha.holds.block r hr
        have := Grant.addr_ne ha.shape hg.grant hd hf
        omega
  | free hbs _ _ hf _ =>
      exact ⟨hf.same.first.trans ha.first, by simp, hf.shape, ha.holds.drop rfl hf.mem⟩
  | @realloc _ _ _ _ xs ys _ b c hbs _ hr =>
      subst hbs
      have hmem := fun d hd hf hne => (hr.others d hd hf hne).1
      refine ⟨hr.first, List.ne_nil_of_mem hr.mem.1, hr.shape,
        (ha.holds.drop rfl hmem).add hr.mem ?_⟩
      intro r hrm heq
      obtain ⟨hrm, hne⟩ := List.mem_filter.mp hrm
      obtain ⟨d, hd, hf, hrd, -⟩ := ha.holds.block r hrm
      have hdb : d ≠ b := by
        rintro rfl
        simp [hrd] at hne
      have := (hr.others d hd hf hdb).2
      omega
  | @write addr byte ho =>
      obtain ⟨r, hr, h₁, h₂⟩ := ho
      obtain ⟨d, hd, -, hrd, hsz⟩ := ha.holds.block r hr
      exact ⟨ha.first, ha.ne_nil, ha.shape.blit hd (by omega) (by omega), ha.holds⟩

/-- The bytes of pointers that are live before and after are not changed. -/
theorem spares (ha : Alive w bs) (he : Effect w bs call w' bs') : w.Spares call w' := by
  intro r hr hcon
  obtain ⟨d, hd, hf, hrd, hsz⟩ := ha.holds.block r hr
  have hhas : ∀ i < r.2, d.Has (r.1 + i) := fun i hi => by
    unfold Blk.Has
    omega
  have hother : ∀ b : Blk, r.1 ≠ b.addr + 32 → d ≠ b := by
    rintro b hne rfl
    exact hne hrd
  cases he with
  | idle _ => exact ⟨hr, fun _ _ => rfl⟩
  | malloc hg => exact ⟨List.mem_cons_of_mem _ hr, fun i hi => hg.keep d hd hf _ (hhas i hi)⟩
  | free hbs _ _ hfr _ =>
      refine ⟨List.mem_filter.mpr ⟨hr, by simpa [Call.Concerns] using hcon⟩, fun i hi => ?_⟩
      exact hfr.keep d hd hf (hother _ hcon) _ (hhas i hi)
  | realloc hbs _ hre =>
      subst hbs
      refine ⟨List.mem_cons_of_mem _ (List.mem_filter.mpr
        ⟨hr, by simpa [Call.Concerns] using hcon⟩), fun i hi => ?_⟩
      exact hre.keep d hd hf (hother _ hcon) _ (hhas i hi)
  | @write addr byte _ =>
      refine ⟨hr, fun i hi => ?_⟩
      show w.heap.mem.blit addr 1 (fun _ => byte) (r.1 + i) = w.heap.mem (r.1 + i)
      simp only [Call.Concerns] at hcon
      exact Mem.blit_of_outside (by omega)

end Effect

theorem Alive.separate (ha : Alive w bs) : w.Separate := by
  refine ⟨?_, fun r hr => ?_, fun b hb r hr => ?_⟩
  · refine (List.pairwise_map.mp ha.holds.nodup).imp_of_mem ?_
    intro r s hr hs hne
    obtain ⟨d, hd, -, hrd, hrz⟩ := ha.holds.block r hr
    obtain ⟨e, he, -, hse, hsz⟩ := ha.holds.block s hs
    have hde : d ≠ e := by
      rintro rfl
      exact hne (hrd.trans hse.symm)
    have := (ha.shape.tiles.trichotomy hd he).resolve_left hde
    simp only [Blk.len, sizeofBlock] at this
    omega
  · obtain ⟨d, hd, -, hrd, hrz⟩ := ha.holds.block r hr
    have := ha.shape.tiles.valid hd
    omega
  · rw [ha.shape.blocks_eq] at hb
    obtain ⟨d, hd, -, hrd, hrz⟩ := ha.holds.block r hr
    have := ha.shape.tiles.trichotomy hb hd
    simp only [Blk.len, sizeofBlock] at this
    rcases this with rfl | this | this <;> omega

/-! ### Before the region exists -/

/-- No call has asked for memory yet. -/
structure Fresh (w : World) : Prop where
  lo_pos : 0 < w.heap.lo
  brk_lt : w.heap.brk < 2 ^ 64
  empty : w.heap.lo = w.heap.brk
  first : w.heap.first = true
  base : w.heap.base = NULL
  end_ : w.heap.end_ = NULL
  live : w.live = []

/-- The first `sbrk` failed: `base` stays `(Block *) -1` for good. -/
structure Failed (w : World) : Prop where
  brk_lt : w.heap.brk < 2 ^ 64
  empty : w.heap.lo = w.heap.brk
  first : w.heap.first = false
  base : w.heap.base = sbrkFailed
  live : w.live = []

/-- With nothing live, a call that is no allocation changes nothing, since the one pointer
that may be passed is null. -/
theorem step_of_live_nil (hlive : w.live = []) {call : Call} (hstep : w.Step call w') :
    (w' = w ∧ call.normal = .free NULL) ∨
      ∃ size ok p h', call.normal = .malloc size ok ∧ size < 2 ^ 64 ∧
      w.heap.mmMalloc size ok = .ok (p, h') ∧
      w' = ⟨h', if p = NULL then [] else [(p, size)]⟩ := by
  have hpass : ∀ p, w.passable p → p = NULL := fun p hp => by
    simpa [World.passable, hlive] using hp
  have hdrop : ∀ p, w.drop p = w.live := fun p => by simp [World.drop, hlive]
  have hw : (⟨w.heap, w.live⟩ : World) = w := rfl
  unfold World.Step at hstep
  cases call with
  | malloc size ok =>
      dsimp only [World.step] at hstep
      split at hstep
      · rename_i hsize
        split at hstep
        · rename_i p h' hrun
          refine Or.inr ⟨size, ok, p, h', rfl, hsize, hrun, ?_⟩
          rw [← Option.some.inj hstep, hlive]
        · exact absurd hstep (by simp)
      · exact absurd hstep (by simp)
  | free ptr =>
      dsimp only [World.step] at hstep
      split at hstep
      · rename_i hp
        obtain rfl := hpass ptr hp
        simp only [Heap.mmFree, hdrop, if_pos] at hstep
        exact Or.inl ⟨(Option.some.inj hstep).symm, rfl⟩
      · exact absurd hstep (by simp)
  | write addr byte =>
      dsimp only [World.step] at hstep
      rw [if_neg (by simp [World.owned, hlive])] at hstep
      exact absurd hstep (by simp)
  | realloc ptr size ok stack =>
      dsimp only [World.step, Heap.mmRealloc] at hstep
      split at hstep
      · rename_i hp
        obtain rfl := hpass ptr hp.2
        by_cases hzero : size = 0
        · simp only [hzero, Heap.mmFree, hdrop, if_pos, ok_bind] at hstep
          exact Or.inl ⟨(Option.some.inj hstep).symm, if_pos hzero⟩
        · simp only [if_neg hzero, if_pos, hdrop] at hstep
          split at hstep
          · rename_i p h' hrun
            refine Or.inr ⟨size, ok, p, h', ?_, hp.1, hrun, ?_⟩
            · simp [Call.normal, hzero]
            · rw [← Option.some.inj hstep, hlive]
          · exact absurd hstep (by simp)
      · exact absurd hstep (by simp)

/-- Every state of a program whose calls find `end` reliable. -/
inductive Inv (w : World) : Prop
  | fresh (hf : Fresh w)
  | failed (hf : Failed w)
  | alive {bs : List Blk} (ha : Alive w bs)

/-- The outcome of a step on a fresh heap. -/
inductive FirstEffect (w : World) : Call → World → Prop
  | idle {call : Call} (hcall : call = .free NULL ∨ ∃ ok, call = .malloc 0 ok) :
      FirstEffect w call w
  | failed {size : Nat} {ok : Bool} {w' : World} (hpos : size ≠ 0)
      (hnone : w.heap.sbrk (add64 size sizeofBlock) ok = none) (hw : Failed w') :
      FirstEffect w (.malloc size ok) w'
  | start {size : Nat} {ok : Bool} {w' : World} {b : Blk}
      (hsome : (w.heap.sbrk (add64 size sizeofBlock) ok).isSome) (hw : Alive w' [b])
      (hend : w'.heap.end_ = b.addr) :
      FirstEffect w (.malloc size ok) w'

/-- What `sbrk` decides does not depend on `first`. -/
theorem sbrk_begun (h : Heap) (n : Nat) (ok : Bool) :
    ({ h with first := false }.sbrk n ok).isSome = (h.sbrk n ok).isSome := by
  unfold Heap.sbrk
  dsimp only
  rw [apply_ite Option.isSome, apply_ite Option.isSome]
  rfl

/-- Before the region exists, only an allocation can do something. If it succeeds, there are
the region and one block in it. -/
theorem Fresh.step (hf : Fresh w) {call : Call} (hstep : w.Step call w') :
    FirstEffect w call.normal w' := by
  rcases step_of_live_nil hf.live hstep with ⟨rfl, hcall⟩ |
    ⟨size, ok, p, h', hcall, hsize, hrun, rfl⟩
  · exact .idle (Or.inl hcall)
  · rw [hcall]
    unfold Heap.mmMalloc at hrun
    split at hrun
    · rename_i hzero
      obtain ⟨rfl, rfl⟩ := Prod.mk.inj (Except.ok.inj hrun)
      rw [if_pos rfl, ← hf.live]
      exact .idle (Or.inr ⟨ok, by rw [hzero]⟩)
    · rename_i hpos
      rw [if_pos hf.first] at hrun
      rcases startHeap_spec hf.lo_pos hf.empty hsize hrun with ⟨rfl, rfl, hnone⟩ |
        ⟨rfl, hshape, hfirst, hend, -, hsome⟩
      · refine .failed hpos ?_ ⟨hf.brk_lt, hf.empty, rfl, rfl, by simp⟩
        rw [← Option.not_isSome_iff_eq_none, ← sbrk_begun, hnone]
        simp
      · refine .start (by rwa [← sbrk_begun]) ⟨hfirst, by simp, hshape, ?_⟩ hend
        rw [if_neg (by unfold NULL; omega)]
        refine ⟨by simp, fun r hr => ?_⟩
        obtain rfl := List.mem_singleton.mp hr
        exact ⟨_, List.mem_singleton.mpr rfl, rfl, rfl, le_refl _⟩

/-- After that the search reads a header at `(Block *) -1`. -/
theorem Failed.malloc_stuck (hf : Failed w) {size : Nat} {ok : Bool} (hpos : size ≠ 0) :
    w.heap.mmMalloc size ok = .error .segv := by
  have hbrk := hf.brk_lt
  have hread : w.heap.getFree sbrkFailed = .error .segv := by
    unfold Heap.getFree Heap.read
    refine if_neg ?_
    unfold Heap.accessible sbrkFailed
    omega
  unfold Heap.mmMalloc
  rw [if_neg hpos, if_neg (by simp [hf.first]), hf.base, Heap.firstFit, if_neg (by decide), hread]
  rfl

theorem Failed.step (hf : Failed w) {call : Call} (hstep : w.Step call w') : w' = w := by
  rcases step_of_live_nil hf.live hstep with ⟨rfl, -⟩ | ⟨size, ok, p, h', -, -, hrun, rfl⟩
  · rfl
  · by_cases hpos : size = 0
    · unfold Heap.mmMalloc at hrun
      rw [if_pos hpos] at hrun
      obtain ⟨rfl, rfl⟩ := Prod.mk.inj (Except.ok.inj hrun)
      rw [if_pos rfl, ← hf.live]
    · rw [hf.malloc_stuck hpos] at hrun
      exact absurd hrun (by simp)

theorem inv_init {mem : Mem} {lo : Nat} (hlo : 0 < lo) (hlt : lo < 2 ^ 64) :
    Inv (World.init mem lo) :=
  .fresh ⟨hlo, hlt, rfl, rfl, rfl, rfl, rfl⟩

theorem Inv.step (hinv : Inv w) {call : Call} (hend : w.EndReliable call)
    (hstep : w.Step call w') : Inv w' := by
  cases hinv with
  | fresh hf =>
      have he := hf.step hstep
      generalize call.normal = call at he
      cases he with
      | idle _ => exact .fresh hf
      | failed _ _ hw => exact .failed hw
      | start _ hw _ => exact .alive hw
  | failed hf => exact hf.step hstep ▸ .failed hf
  | alive ha =>
      obtain ⟨bs', he⟩ := ha.step_effect hend hstep
      exact .alive (he.alive ha)

/-- Where there is an allocation, the heap has its blocks. -/
theorem Inv.alive_of_mem (hinv : Inv w) {r : Nat × Nat} (hr : r ∈ w.live) : ∃ bs, Alive w bs := by
  cases hinv with
  | fresh hf => simp [hf.live] at hr
  | failed hf => simp [hf.live] at hr
  | @alive bs ha => exact ⟨bs, ha⟩

theorem Inv.alive_of_passable (hinv : Inv w) {ptr : Nat} (hpass : w.passable ptr)
    (hptr : ptr ≠ NULL) : ∃ bs, Alive w bs := by
  obtain ⟨r, hr, -⟩ := List.mem_map.mp (hpass.resolve_left hptr)
  exact hinv.alive_of_mem hr

theorem Inv.separate (hinv : Inv w) : w.Separate := by
  have hnil : w.live = [] → w.Separate := fun hlive => by
    refine ⟨?_, ?_, ?_⟩ <;> simp [hlive]
  cases hinv with
  | fresh hf => exact hnil hf.live
  | failed hf => exact hnil hf.live
  | alive ha => exact ha.separate

theorem Inv.spares (hinv : Inv w) {call : Call} (hend : w.EndReliable call)
    (hstep : w.Step call w') : w.Spares call w' := by
  have hnil : w.live = [] → w.Spares call w' := fun hlive r hr => by
    rw [hlive] at hr
    exact absurd hr (by simp)
  cases hinv with
  | fresh hf => exact hnil hf.live
  | failed hf => exact hnil hf.live
  | alive ha =>
      obtain ⟨bs', he⟩ := ha.step_effect hend hstep
      have hconcerns : ∀ r ∈ w.live, ¬ call.Concerns r → ¬ call.normal.Concerns r := by
        intro r hr hcon
        cases call with
        | realloc ptr size ok stack =>
            unfold Call.normal
            dsimp only
            split
            · exact hcon
            · split
              · exact id
              · exact hcon
        | _ => exact hcon
      exact fun r hr hcon => he.spares ha r hr (hconcerns r hr hcon)

/-- A program may take this step: it passes a live pointer or `NULL`, asks for
no more than an `intptr_t` can hold, and writes to its own bytes. -/
def World.Permits (w : World) : Call → Prop
  | .malloc size _ => size + 32 < 2 ^ 63
  | .realloc ptr size _ _ => w.passable ptr ∧ size + 32 < 2 ^ 63
  | .free ptr => w.passable ptr
  | .write addr _ => w.owned addr

/-- Once the region exists, every permitted call returns. A pointer that is passed is the
payload of a block in use, for which the specifications of the three functions say that they
return. -/
theorem Alive.step_isSome (ha : Alive w bs) {call : Call} (hend : w.EndReliable call)
    (hcall : w.Permits call) : (w.step call).isSome := by
  have hfree : ∀ ptr, w.passable ptr → ∃ h', w.heap.mmFree ptr = .ok h' := by
    rintro ptr (rfl | hp)
    · exact ⟨w.heap, if_pos rfl⟩
    · obtain ⟨xs, b, ys, rfl, -, rfl⟩ := ha.holds.split hp
      obtain ⟨xs', m, hl⟩ := exists_absorbLeft xs b
      obtain ⟨m', ys', hr⟩ := exists_absorbRight m ys
      obtain ⟨h', hrun, -⟩ := mmFree_freed ha.shape hl hr
      exact ⟨h', hrun⟩
  have hmalloc : ∀ size ok, size + 32 < 2 ^ 63 →
      (w.Grows size ok → w.heap.end_ = lastOr NULL bs) →
      ∃ p h', w.heap.mmMalloc size ok = .ok (p, h') := by
    intro size ok hsize hgrow
    by_cases hpos : size = 0
    · exact ⟨NULL, w.heap, if_pos hpos⟩
    · exact mmMalloc_returns ha.shape ha.ne_nil ha.first hsize fun hnone hsome =>
        hgrow ⟨hpos, by rwa [ha.shape.blocks_eq], hsome⟩
  unfold World.EndReliable at hend
  rw [ha.shape.blocks_eq] at hend
  cases call with
  | malloc size ok =>
      have hsize : size + 32 < 2 ^ 63 := hcall
      obtain ⟨p, h', hrun⟩ := hmalloc size ok hsize hend
      dsimp only [World.step]
      rw [if_pos (by omega), hrun]
      rfl
  | free ptr =>
      have hp : w.passable ptr := hcall
      obtain ⟨h', hrun⟩ := hfree ptr hp
      dsimp only [World.step]
      rw [if_pos hp, hrun]
      rfl
  | write addr byte =>
      have ho : w.owned addr := hcall
      dsimp only [World.step]
      rw [if_pos ho]
      rfl
  | realloc ptr size ok stack =>
      obtain ⟨hp, hsize⟩ := hcall
      have hrun : ∃ r, w.heap.mmRealloc ptr size ok stack = .ok r := by
        unfold Call.normal at hend
        dsimp only at hend
        -- `realloc` frees, allocates or does both, by its two special cases
        split at hend
        · rename_i hzero
          obtain ⟨h', hrun⟩ := hfree ptr hp
          refine ⟨(NULL, h'), ?_⟩
          unfold Heap.mmRealloc
          rw [if_pos hzero, hrun, ok_bind]
        · rename_i hpos
          split at hend
          · rename_i hnull
            obtain ⟨p, h', hrun⟩ := hmalloc size ok hsize hend
            refine ⟨(p, h'), ?_⟩
            unfold Heap.mmRealloc
            rw [if_neg hpos, if_pos hnull, hrun]
          · rename_i hnull
            obtain ⟨xs, b, ys, rfl, hb, rfl⟩ := ha.holds.split (hp.resolve_left hnull)
            obtain ⟨xs', m, hl⟩ := exists_absorbLeft xs b
            obtain ⟨m', ys', hr⟩ := exists_absorbRight m ys
            have hrel : m'.size < size → (∀ c ∈ xs ++ b :: ys, c.fits size = false) →
                (w.heap.sbrk (add64 size sizeofBlock) ok).isSome →
                w.heap.end_ = lastOr NULL (xs ++ b :: ys) := fun hsmall hnone hsome =>
              hend ⟨by rwa [mergedSize_eq ha.shape hl hr], hpos, by rwa [ha.shape.blocks_eq], hsome⟩
            rcases mmRealloc_of_malloc ha.shape hb ha.first hl hr (by omega) hpos stack hrel
              (fun hsmall => mmMalloc_returns ha.shape ha.ne_nil ha.first hsize (hrel hsmall)) with
              ⟨hres, -⟩ | ⟨h', bs', c, hres, -⟩
            · exact ⟨_, hres⟩
            · exact ⟨_, hres⟩
      obtain ⟨r, hrun⟩ := hrun
      dsimp only [World.step]
      rw [if_pos ⟨by omega, hp⟩, hrun]
      rfl

/-- **Memory safety.** In every run in which no call gets memory from `sbrk`
while `end` is not the last block, the live allocations stay apart from each
other and from all headers, and every step spares the allocations it is not
about. -/
theorem mm_alloc_separate {mem : Mem} {lo : Nat} (hlo : 0 < lo) (hlt : lo < 2 ^ 64)
    {ts : List (Transition World Call)} (hrun : Run World.Step (World.init mem lo) ts)
    (hend : ∀ t ∈ ts, t.pre.EndReliable t.label) :
    ∀ t ∈ ts, t.post.Separate ∧ t.pre.Spares t.label t.post := by
  have hinv := hrun.guarded (fun _ _ _ hI hC hs => Inv.step hI hC hs) (inv_init hlo hlt) hend
  intro t ht
  have hstep := hrun.step_of_mem t ht
  exact ⟨(hinv t ht).2.separate, (hinv t ht).1.spares (hend t ht) hstep⟩

/-- A program that splits, merges, reuses, grows and moves blocks. -/
def reuse : List Call :=
  [.malloc 100 true, .malloc 8 true, .write 4128 7, .free 4128, .malloc 40 true,
    .realloc 4260 200 true fun _ => 0, .write 4160 9, .realloc 4128 90 true fun _ => 0, .free 4300]

theorem mm_alloc_separate_reuse :
    (Run.trace World.step (World.init (fun _ => 0) 4096) reuse).length = 9 ∧
    ∀ t ∈ Run.trace World.step (World.init (fun _ => 0) 4096) reuse,
      t.post.Separate ∧ t.pre.Spares t.label t.post :=
  ⟨by decide +kernel, mm_alloc_separate (by decide) (by decide)
    (Run.of_trace World.step _ reuse) (by decide +kernel)⟩

/-- Freeing the last block after its predecessor leaves `end` in the merged
block; the next block from `sbrk` is linked there. -/
def staleEnd : List Call :=
  [.malloc 8 true, .malloc 8 true, .free 4128, .free 4168, .malloc 48 true, .malloc 100 true]

/-- The last call of `staleEnd` overwrites the live allocation. -/
theorem stale_end_overwrites : ∃ ts, Run World.Step (World.init (fun _ => 0) 4096) ts ∧
    ∃ t ∈ ts, ¬ (t.post.Separate ∧ t.pre.Spares t.label t.post) := by
  refine ⟨_, Run.of_trace World.step _ staleEnd, ?_⟩
  have hlast : ∃ t ∈ Run.trace World.step (World.init (fun _ => 0) 4096) staleEnd,
      (4128, 48) ∈ t.pre.live ∧ ¬ t.label.Concerns (4128, 48) ∧
        t.post.heap.mem (4128 + 24) ≠ t.pre.heap.mem (4128 + 24) := by
    decide +kernel
  obtain ⟨t, ht, hlive, hcon, hne⟩ := hlast
  exact ⟨t, ht, fun hsafe => hne ((hsafe.2 _ hlive hcon).2 24 (by decide))⟩

end OsTools.MmAlloc

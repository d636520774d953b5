import OsTools.MmAlloc.Contents
/-!
# OsTools.MmAlloc.Sums

The unchecked `size_t` arithmetic. A block that `mm_malloc` returns lies in the region, so the sums
that led to it have not wrapped, and the sizes that `mm_realloc` and `mm_free` add up are those of
blocks side by side in the region.

This is so as long as the sizes in the headers are those of the blocks. Once a live allocation
contains a header, through an `end` that is not the last block, its owner may store any size there.

The conditions are read off the lists: in a state of a run a block that the search finds is
a block of the list (`Shape.found`), and blocks of a list lie side by side in the region,
whose end is an address.
-/

namespace OsTools.MmAlloc

open Heap

variable {h : Heap} {xs ys xs' ys' bs : List Blk} {b c m m' : Blk} {size : Nat} {ok : Bool}
  {w w' : World}

/-- The block with payload `p` lies in the region, its capacity is at least `size`, and that many
bytes are zero. -/
structure Heap.Usable (h : Heap) (p size : Nat) : Prop where
  capacity : size ≤ (h.hdr (p - 32)).size
  header : h.lo + 32 ≤ p
  inside : p + (h.hdr (p - 32)).size ≤ h.brk
  zero : ∀ i < size, h.mem (p + i) = 0

/-- The sum passed to `sbrk` does not wrap, and neither do the differences where a block is
found. -/
structure Heap.MallocSums (h : Heap) (size : Nat) : Prop where
  sbrk : (h.first = true ∨ h.firstFit size (h.brk - h.lo + 1) h.base = .ok none) →
    size + 32 < 2 ^ 64
  found : h.first = false → ∀ b, h.firstFit size (h.brk - h.lo + 1) h.base = .ok (some b) →
    size ≤ (h.hdr b).size ∧
      (sizeofBlock ≤ sub64 (h.hdr b).size size → size + 32 ≤ (h.hdr b).size)

/-- Where `mm_malloc (size)` returns a block, it is usable and no sum has wrapped. -/
def Heap.MallocSound (h : Heap) (size : Nat) (ok : Bool) : Prop :=
  ∀ p h', h.mmMalloc size ok = .ok (p, h') → p ≠ NULL → h'.Usable p size ∧ h.MallocSums size

/-- `if_we_free` does not wrap, and the call of `mm_malloc` in the branch taken is sound. -/
structure Heap.ReallocSound (h : Heap) (ptr size : Nat) (ok : Bool) : Prop where
  merged : h.mergedSize ptr < 2 ^ 64
  away : h.mergedSize ptr < size → h.MallocSound size ok
  within : size ≤ h.mergedSize ptr → ∀ h', h.mmFree ptr = .ok h' → h'.MallocSound size ok

/-! ### `mm_malloc` -/

/-- No bytes are asked for, and none are given. -/
theorem Heap.mallocSound_zero (h : Heap) (ok : Bool) : h.MallocSound 0 ok := by
  intro p h' hrun hp
  unfold Heap.mmMalloc at hrun
  rw [if_pos rfl] at hrun
  exact absurd (Prod.mk.inj (Except.ok.inj hrun)).1.symm hp

/-- A block of the list. -/
theorem Shape.usable (hs : Shape h bs) (hc : c ∈ bs) (hsize : size ≤ c.size)
    (hzero : ∀ i < size, h.mem (c.addr + 32 + i) = 0) : h.Usable (c.addr + 32) size := by
  obtain ⟨xs, ys, rfl⟩ := List.append_of_mem hc
  have hv := hs.tiles.valid hc
  have hheader : (h.hdr (c.addr + 32 - 32)).size = c.size := by
    rw [Nat.add_sub_cancel, hs.header]
  refine ⟨?_, ?_, ?_, hzero⟩
  · rw [hheader]
    exact hsize
  · omega
  · rw [hheader]
    exact hv.2

/-- The search finds a block that fits. -/
theorem Shape.found (hs : Shape h bs) {a : Nat}
    (hfound : h.firstFit size (h.brk - h.lo + 1) h.base = .ok (some a)) :
    size ≤ (h.hdr a).size ∧
      (sizeofBlock ≤ sub64 (h.hdr a).size size → size + 32 ≤ (h.hdr a).size) := by
  rw [firstFit_spec hs] at hfound
  obtain ⟨b, hfind, rfl⟩ := Option.map_eq_some_iff.mp (Except.ok.inj hfound)
  obtain ⟨hfit, xs, ys, rfl, -⟩ := List.find?_eq_some_iff_append.mp hfind
  have hle := (Blk.fits_iff.mp hfit).2
  have hlt := (hdr_lt h b.addr).1
  rw [hs.header] at hlt ⊢
  dsimp only at hlt ⊢
  refine ⟨hle, fun hcut => ?_⟩
  rw [sub64_of_le hle hlt] at hcut
  unfold sizeofBlock at hcut
  omega

theorem Shape.mallocSound (hs : Shape h bs) (hne : bs ≠ []) (hfirst : h.first = false)
    (hsize : size < 2 ^ 64) (hend : (∀ c ∈ bs, c.fits size = false) →
      (h.sbrk (add64 size sizeofBlock) ok).isSome → h.end_ = lastOr NULL bs) :
    h.MallocSound size ok := by
  by_cases hpos : size = 0
  · rw [hpos]
    exact h.mallocSound_zero ok
  · intro p h' hrun hp
    rcases mmMalloc_spec hs hne hfirst hsize hpos hend hrun with ⟨hnull, -⟩ | ⟨bs', c, rfl, hg⟩
    · exact absurd hnull hp
    · obtain ⟨hc, -, hcsize⟩ := hg.grant.mem
      have hv := hg.shape.tiles.valid hc
      have hbrk := hg.shape.brk_lt
      refine ⟨hg.shape.usable hc hcsize hg.zero, fun _ => by omega, fun _ a hfound => ?_⟩
      exact hs.found hfound

theorem Fresh.mallocSound (hf : Fresh w) (hsize : size < 2 ^ 64) : w.heap.MallocSound size ok := by
  by_cases hpos : size = 0
  · rw [hpos]
    exact w.heap.mallocSound_zero ok
  · intro p h' hrun hp
    unfold Heap.mmMalloc at hrun
    rw [if_neg hpos, if_pos hf.first] at hrun
    rcases startHeap_spec hf.lo_pos hf.empty hsize hrun with ⟨hnull, -⟩ |
      ⟨rfl, hshape, -, -, hzero, -⟩
    · exact absurd hnull hp
    · have hv := hshape.tiles.valid List.mem_cons_self
      have hbrk := hshape.brk_lt
      refine ⟨hshape.usable (c := ⟨w.heap.brk, size, false⟩) List.mem_cons_self (le_refl _) hzero,
        fun _ => ?_, fun hfirst => ?_⟩
      · dsimp only at hv
        omega
      · rw [hf.first] at hfirst
        exact absurd hfirst (by decide)

theorem Failed.mallocSound (hf : Failed w) : w.heap.MallocSound size ok := by
  by_cases hpos : size = 0
  · rw [hpos]
    exact w.heap.mallocSound_zero ok
  · intro p h' hrun hp
    rw [hf.malloc_stuck hpos] at hrun
    exact absurd hrun (by simp)

/-! ### Runs -/

theorem Inv.mallocSound (hinv : Inv w) (hsize : size < 2 ^ 64)
    (hend : w.Grows size ok → w.heap.end_ = lastOr NULL w.heap.blocks) :
    w.heap.MallocSound size ok := by
  cases hinv with
  | fresh hf => exact hf.mallocSound hsize
  | failed hf => exact hf.mallocSound
  | @alive bs ha =>
      rw [ha.shape.blocks_eq] at hend
      by_cases hpos : size = 0
      · rw [hpos]
        exact w.heap.mallocSound_zero ok
      · refine ha.shape.mallocSound ha.ne_nil ha.first hsize fun hnone hsome =>
          hend ⟨hpos, ?_, hsome⟩
        rwa [ha.shape.blocks_eq]

/-- `mm_realloc` on a heap in use. The merged block is a part of the region, so that its size
does not wrap; and the allocation that follows is made on a heap that is in use too, before
the block is freed or after it. -/
theorem Alive.reallocSound (ha : Alive w bs) {ptr : Nat} {stack : Nat → UInt8}
    (hsize : size < 2 ^ 64) (hpos : size ≠ 0) (hptr : ptr ≠ NULL) (hpass : w.passable ptr)
    (hend : w.EndReliable (.realloc ptr size ok stack)) : w.heap.ReallocSound ptr size ok := by
  obtain ⟨xs, b, ys, rfl, hb, rfl⟩ := ha.holds.split (hpass.resolve_left hptr)
  obtain ⟨xs', m, hl⟩ := exists_absorbLeft xs b
  obtain ⟨m', ys', hr⟩ := exists_absorbRight m ys
  have hmerged := mergedSize_eq ha.shape hl hr
  refine ⟨?_, fun hlt => ?_, fun hfit h' hfree => ?_⟩
  · rw [hmerged]
    exact merged_lt ha.shape hl hr
  · rw [hmerged] at hlt
    exact ha.shape.mallocSound ha.ne_nil ha.first hsize (ha.reliable hl hr hpos hend hlt)
  · -- the merged block fits, so that nothing is asked of `sbrk`
    rw [hmerged] at hfit
    obtain ⟨h₁, hrun, hfreed, -⟩ := mmFree_freed ha.shape hl hr
    rw [hrun] at hfree
    obtain rfl := Except.ok.inj hfree
    refine hfreed.shape.mallocSound (by simp) (hfreed.same.first.trans ha.first) hsize
      fun hnone => ?_
    have hmfree : m.free = true := by cases hl <;> rfl
    have hfree' : m'.free = true := by
      rcases hr.addr_mem with ⟨-, hf⟩ | ⟨-, hf⟩
      · exact hf.trans hmfree
      · exact hf
    have hno := hnone m' (by simp)
    rw [Blk.fits_iff.mpr ⟨hfree', hfit⟩] at hno
    exact absurd hno (by simp)

/-- **Sizes.** In every run in which no call gets memory from `sbrk` while `end` is not the last
block: a block that `mm_malloc` returns is usable, and no sum has wrapped on the way to it; the same
of the sums in a `mm_realloc`, and of the `mm_malloc` in it. -/
theorem mm_alloc_sums_exact {mem : Mem} {lo : Nat} (hlo : 0 < lo) (hlt : lo < 2 ^ 64)
    {ts : List (Transition World Call)} (hrun : Run World.Step (World.init mem lo) ts)
    (hend : ∀ t ∈ ts, t.pre.EndReliable t.label) :
    ∀ t ∈ ts, (∀ size ok, t.label = .malloc size ok → t.pre.heap.MallocSound size ok) ∧
      ∀ ptr size ok stack, t.label = .realloc ptr size ok stack → size ≠ 0 →
        (ptr = NULL → t.pre.heap.MallocSound size ok) ∧
        (ptr ≠ NULL → t.pre.heap.ReallocSound ptr size ok) := by
  have hinv := hrun.guarded (fun _ _ _ hI hC hs => Inv.step hI hC hs) (inv_init hlo hlt) hend
  intro t ht
  have hstep := hrun.step_of_mem t ht
  have hrel := hend t ht
  refine ⟨fun size ok hlabel => ?_, fun ptr size ok stack hlabel hpos =>
    ⟨fun hnull => ?_, fun hptr => ?_⟩⟩
  all_goals rw [hlabel] at hstep hrel
  · unfold World.Step at hstep
    dsimp only [World.step] at hstep
    split at hstep
    · exact (hinv t ht).1.mallocSound ‹_› hrel
    · exact absurd hstep (by simp)
  · unfold World.EndReliable Call.normal at hrel
    dsimp only at hrel
    rw [if_neg hpos, if_pos hnull] at hrel
    exact (hinv t ht).1.mallocSound hstep.realloc.1 hrel
  · obtain ⟨hsize, hpass, -⟩ := hstep.realloc
    obtain ⟨bs, ha⟩ := (hinv t ht).1.alive_of_passable hpass hptr
    exact ha.reallocSound hsize hpos hptr hpass hrel

/-- The blocks that `mm_malloc` returns in a program. -/
theorem mm_alloc_sums_exact_beforeMove :
    beforeMove.heap.MallocSound 100 true ∧ beforeMove.heap.ReallocSound 4128 100 true := by
  have hmalloc := mm_alloc_sums_exact (by decide) (by decide) (Run.of_trace World.step _ _)
    (by decide +kernel) _ (@mem_neighbours _ (.malloc 100 true) (Option.some_get
      (by decide +kernel)).symm)
  have hrealloc := mm_alloc_sums_exact (by decide) (by decide) (Run.of_trace World.step _ _)
    (by decide +kernel) _ (@mem_neighbours _ (.realloc 4128 100 true fun _ => 1)
      (Option.some_get (by decide +kernel)).symm)
  exact ⟨hmalloc.1 100 true rfl, (hrealloc.2 4128 100 true _ rfl (by decide)).2 (by decide)⟩

/-- After `staleEnd` the owner of the first allocation stores a size of `2 ^ 64 - 32` in the header
that is in it. -/
def forgedSize : List Call :=
  staleEnd ++ [.write 4136 224, .write 4137 255, .write 4138 255, .write 4139 255, .write 4140 255,
    .write 4141 255, .write 4142 255, .write 4143 255, .write 4144 1]

def forged : World :=
  (Run.final World.step (World.init (fun _ => 0) 4096) forgedSize).get (by decide +kernel)

def afterWrap : World := (forged.step (.realloc 4208 50 true fun _ => 0)).get (by decide +kernel)

/-- `if_we_free` wraps, and `mm_realloc` returns a block. -/
theorem forged_size_wraps : ∃ ts, Run World.Step (World.init (fun _ => 0) 4096) ts ∧
    ∃ t ∈ ts, ∃ ptr size ok stack p, t.label = .realloc ptr size ok stack ∧ size ≠ 0 ∧
      ptr ≠ NULL ∧ p ≠ NULL ∧ t.pre.heap.mmRealloc ptr size ok stack = .ok (p, t.post.heap) ∧
        ¬ t.pre.heap.ReallocSound ptr size ok := by
  have hstep : forged.Step (.realloc 4208 50 true fun _ => 0) afterWrap := (Option.some_get _).symm
  have hmem : ⟨forged, .realloc 4208 50 true fun _ => 0, afterWrap⟩ ∈ Run.trace World.step
      (World.init (fun _ => 0) 4096) (forgedSize ++ [.realloc 4208 50 true fun _ => 0]) :=
    Run.mem_trace (Option.some_get _).symm hstep
  obtain ⟨-, -, p, hresult, hlive⟩ := hstep.realloc
  have hp : p ≠ NULL := by
    rintro rfl
    rw [if_neg (by decide), if_pos rfl] at hlive
    exact absurd hlive (by decide +kernel)
  refine ⟨_, Run.of_trace World.step _ _, _, hmem, 4208, 50, true, _, p, rfl, by decide, by decide,
    hp, hresult, fun hsound => ?_⟩
  exact absurd hsound.merged (by decide +kernel)

end OsTools.MmAlloc

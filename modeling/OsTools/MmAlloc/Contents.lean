import OsTools.MmAlloc.Intact
/-!
# OsTools.MmAlloc.Contents

The contents of an allocation that `mm_realloc` moves. Both of its branches copy the saved bytes
into a block that `mm_malloc` has zeroed, so what was there comes back and the rest is zero.

The branch that allocates first takes the number of bytes for that copy from the header of the old
block after `mm_free`. When the freed block has absorbed its successor and has not been absorbed
itself, this is more than was saved, and the copy goes on behind the end of the buffer
(`ReadsPast`).

## Proof shape

Both branches save the bytes and copy them back, so that what is asked is how many
(`Copies`). A copy of no more than was saved is right whatever lies on the stack
(`Copies.saved`), and a longer one depends on the stack (`copied_ne`); the number is the
size in the header, which `Realloc.reread_size` computes. The theorem is an equivalence in
every state of a run, from `mmRealloc_saved_iff` for one call.
-/

namespace OsTools.MmAlloc

open Heap

variable {h : Heap} {xs ys xs' ys' bs : List Blk} {b c m m' : Blk} {size : Nat} {w w' : World}

theorem copied_congr {a n : Nat} {f g : Nat → UInt8} (hfg : ∀ i < n, f i = g i) :
    h.copied a n f = h.copied a n g := by
  have hmem : h.mem.blit a n f = h.mem.blit a n g := by
    funext x
    unfold Mem.blit
    split
    · exact hfg _ (by omega)
    · rfl
  unfold Heap.copied
  rw [hmem]

theorem copied_inside {a n i : Nat} {f : Nat → UInt8} (hi : i < n) :
    (h.copied a n f).mem (a + i) = f i := Mem.blit_of_inside hi

theorem copied_outside {a n x : Nat} {f : Nat → UInt8} (hx : x < a ∨ a + n ≤ x) :
    (h.copied a n f).mem x = h.mem x := Mem.blit_of_outside hx

/-! ### The neighbours of a block -/

theorem prev_free_iff (hs : Shape h (xs ++ b :: ys)) :
    (h.hdr b.addr).prev ≠ NULL ∧ (h.hdr (h.hdr b.addr).prev).free = 1 ↔
      ∃ p ∈ xs.getLast?, p.free = true := by
  rw [hs.header]
  dsimp only
  rcases List.eq_nil_or_concat xs with rfl | ⟨zs, p, rfl⟩
  · simp
  · rw [List.concat_eq_append] at hs ⊢
    have hs' : Shape h (zs ++ p :: b :: ys) := by simpa using hs
    have hlast : lastOr NULL (zs ++ [p]) = p.addr := by simp
    rw [hlast, hs'.header]
    cases hp : p.free <;> simp [hp, hs'.addr_ne_null (b := p) (by simp)]

theorem next_free_iff (hs : Shape h (xs ++ b :: ys)) :
    (h.hdr b.addr).next ≠ NULL ∧ (h.hdr (h.hdr b.addr).next).free = 1 ↔
      ∃ n ∈ ys.head?, n.free = true := by
  rw [hs.header]
  dsimp only
  cases ys with
  | nil => simp
  | cons n ys =>
      have hs' : Shape h ((xs ++ [b]) ++ n :: ys) := by simpa using hs
      rw [headOr_cons, hs'.header]
      cases hn : n.free <;> simp [hn, hs'.addr_ne_null (b := n) (by simp)]

/-- The second branch, where the freed block absorbs its successor and is not absorbed. -/
def Heap.ReadsPast (h : Heap) (ptr size : Nat) : Prop :=
  let d := h.hdr (ptr - 32)
  h.mergedSize ptr < size ∧ (d.next ≠ NULL ∧ (h.hdr d.next).free = 1) ∧
    ¬ (d.prev ≠ NULL ∧ (h.hdr d.prev).free = 1)

instance (h : Heap) (ptr size : Nat) : Decidable (h.ReadsPast ptr size) :=
  inferInstanceAs (Decidable (_ ∧ _ ∧ _))

theorem readsPast_iff (hs : Shape h (xs ++ b :: ys)) (hl : AbsorbLeft xs b xs' m)
    (hr : AbsorbRight m ys m' ys') : h.ReadsPast (b.addr + 32) size ↔
      m'.size < size ∧ (∀ p ∈ xs.getLast?, p.free = false) ∧ ∃ q ∈ ys.head?, q.free = true := by
  unfold Heap.ReadsPast
  rw [mergedSize_eq hs hl hr, Nat.add_sub_cancel]
  dsimp only
  rw [prev_free_iff hs, next_free_iff hs]
  constructor
  · rintro ⟨hlt, hnext, hprev⟩
    refine ⟨hlt, fun p hp => ?_, hnext⟩
    cases hf : p.free with
    | false => rfl
    | true => exact absurd ⟨p, hp, hf⟩ hprev
  · rintro ⟨hlt, hprev, hnext⟩
    refine ⟨hlt, hnext, ?_⟩
    rintro ⟨p, hp, hf⟩
    rw [hprev p hp] at hf
    exact absurd hf (by simp)

/-! ### One call -/

/-- The allocation of `m` bytes at `ptr` has its contents at `p`: the bytes requested are the same,
those behind the old capacity are zero, and what lies behind the saved copy makes no
difference. -/
def Heap.Saved (h : Heap) (ptr m size : Nat) (ok : Bool) (p : Nat) (h' : Heap) : Prop :=
  (∀ i < min m size, h'.mem (p + i) = h.mem (ptr + i)) ∧
  (∀ i, (h.hdr (ptr - 32)).size ≤ i → i < size → h'.mem (p + i) = 0) ∧
  ∀ stack, h.mmRealloc ptr size ok stack = .ok (p, h')

/-- A copy of what was saved, and no more. -/
theorem Copies.saved {h' : Heap} {bs' : List Blk} {n k : Nat} {ok : Bool} {f : Nat → UInt8}
    {run : (Nat → UInt8) → Except Stuck (Nat × Heap)} (hs : Shape h (xs ++ b :: ys))
    (hc : Copies h xs b ys size h' bs' c n run) (hk : k ≤ b.size)
    (hn : n = if size < b.size then size else b.size)
    (hf : ∀ i < n, f i = h.mem (b.addr + 32 + i))
    (hrun : ∀ stack, h.mmRealloc (b.addr + 32) size ok stack =
      .ok (c.addr + 32, h'.copied (c.addr + 32) n f)) :
    h.Saved (b.addr + 32) k size ok (c.addr + 32) (h'.copied (c.addr + 32) n f) := by
  refine ⟨fun i hi => ?_, fun i hi hlt => ?_, hrun⟩
  · have hin : i < n := by
      rw [hn]
      split <;> omega
    rw [copied_inside hin, hf i hin]
  · rw [Nat.add_sub_cancel, hs.header] at hi
    dsimp only at hi
    have hout : n ≤ i := by
      rw [hn]
      split <;> omega
    rw [copied_outside (Or.inr (by omega)), hc.zero i hlt]

/-- A longer copy depends on what lies behind the buffer. -/
theorem copied_ne {a n k : Nat} {f stack : Nat → UInt8} (hk : k < n) :
    h.copied a n (pastEnd k f fun i => stack i + 1) ≠ h.copied a n (pastEnd k f stack) := by
  intro heq
  have hbyte : stack k + 1 = stack k := by
    have hmem : (h.copied a n (pastEnd k f fun i => stack i + 1)).mem (a + k) =
        (h.copied a n (pastEnd k f stack)).mem (a + k) := by rw [heq]
    rw [copied_inside hk, copied_inside hk] at hmem
    unfold pastEnd at hmem
    rwa [if_neg (Nat.lt_irrefl k), if_neg (Nat.lt_irrefl k)] at hmem
  simp at hbyte

/-- `mm_realloc` saves the first `k` bytes exactly if it does not read past the block.
Merging with the predecessor moves them, and where the merged block is too small they are
copied from it to another one; `hend` is that the end of the heap is known where a new block
is asked for. -/
theorem mmRealloc_saved_iff (hs : Shape h (xs ++ b :: ys)) (hb : b.free = false)
    (hfirst : h.first = false) (hl : AbsorbLeft xs b xs' m) (hr : AbsorbRight m ys m' ys')
    (hsize : size < 2 ^ 64) (hpos : size ≠ 0) {ok : Bool} {stack : Nat → UInt8}
    (hend : m'.size < size → (∀ c ∈ xs ++ b :: ys, c.fits size = false) →
      (h.sbrk (add64 size sizeofBlock) ok).isSome → h.end_ = lastOr NULL (xs ++ b :: ys))
    {p k : Nat} {h' : Heap} (hk : k ≤ b.size)
    (hrun : h.mmRealloc (b.addr + 32) size ok stack = .ok (p, h')) (hp : p ≠ NULL) :
    h.Saved (b.addr + 32) k size ok p h' ↔ ¬ h.ReadsPast (b.addr + 32) size := by
  have hunfold : ∀ stack, _ := fun stack =>
    @mmRealloc_unfold _ _ _ _ _ _ _ _ size hs hl hr (merged_lt hs hl hr) hpos ok stack
  rw [readsPast_iff hs hl hr]
  by_cases hfit : size ≤ m'.size
  · obtain ⟨h₁, bs', c, hcopies⟩ := freeThenMalloc_spec hs hfirst hl hr hpos hfit
      (n := if size < b.size then size else b.size) (by split <;> omega) ok
    have hall : ∀ stack, h.mmRealloc (b.addr + 32) size ok stack = _ := fun stack =>
      (hunfold stack).trans ((if_pos hfit).trans (hcopies.run_eq _))
    rw [hall stack] at hrun
    obtain ⟨rfl, rfl⟩ := Prod.mk.inj (Except.ok.inj hrun)
    refine iff_of_true (hcopies.saved hs hk rfl (fun _ _ => rfl) hall) ?_
    rintro ⟨hlt, -⟩
    omega
  · have hlt : m'.size < size := by omega
    have hle := hl.size_le
    have hle' := hr.size_le
    have hcopy : (if size < b.size then size else b.size) = b.size := if_neg (by omega)
    rw [hunfold stack, if_neg hfit, hcopy] at hrun
    obtain ⟨⟨q, h₁⟩, hmalloc, hrest⟩ := bind_eq_ok hrun
    rcases mmMalloc_spec hs (by simp) hfirst hsize hpos (hend hlt) hmalloc with
      ⟨rfl, rfl, -⟩ | ⟨bs₁, c, rfl, hg⟩
    · dsimp only at hrest
      rw [if_pos rfl] at hrest
      exact absurd (Prod.mk.inj (Except.ok.inj hrest)).1.symm hp
    · obtain ⟨h₂, bs', n, hcopies, hn, hpast⟩ := mallocThenFree_spec hs hb hl hr hlt hmalloc hg
      have hall : ∀ stack, h.mmRealloc (b.addr + 32) size ok stack =
          .ok (c.addr + 32, h₂.copied (c.addr + 32) n
            (pastEnd b.size (fun i => h.mem (b.addr + 32 + i)) stack)) := by
        intro stack
        rw [hunfold stack, if_neg hfit, hcopy, hcopies.run_eq]
      rw [hcopies.run_eq] at hrun
      obtain ⟨rfl, rfl⟩ := Prod.mk.inj (Except.ok.inj hrun)
      rw [and_iff_right hlt, ← hpast]
      by_cases hmore : b.size < n
      · refine iff_of_false ?_ fun hno => hno hmore
        rintro ⟨-, -, hsame⟩
        have heq := hsame fun i => stack i + 1
        rw [hall] at heq
        exact copied_ne hmore (Prod.mk.inj (Except.ok.inj heq)).2
      · obtain rfl : n = b.size := by omega
        have hpastEnd : ∀ stack i, i < b.size →
            pastEnd b.size (fun i => h.mem (b.addr + 32 + i)) stack i =
              h.mem (b.addr + 32 + i) := fun stack i hi => if_pos hi
        refine iff_of_true (hcopies.saved hs hk hcopy.symm (hpastEnd stack) fun stack' => ?_) hmore
        rw [hall]
        exact congrArg (fun g => Except.ok (c.addr + 32, g)) (copied_congr fun i hi =>
          (hpastEnd stack' i hi).trans (hpastEnd stack i hi).symm)

/-! ### Runs -/

theorem Alive.realloc_saved_iff (ha : Alive w bs) {ptr k : Nat} {ok : Bool} {stack : Nat → UInt8}
    (hsize : size < 2 ^ 64) (hpos : size ≠ 0) (hlive : (ptr, k) ∈ w.live)
    (hend : w.EndReliable (.realloc ptr size ok stack)) {p : Nat} {h' : Heap}
    (hrun : w.heap.mmRealloc ptr size ok stack = .ok (p, h')) (hp : p ≠ NULL) :
    w.heap.Saved ptr k size ok p h' ↔ ¬ w.heap.ReadsPast ptr size := by
  obtain ⟨d, hd, hf, hptr, hk⟩ := ha.holds.block _ hlive
  dsimp only at hptr hk
  subst hptr
  obtain ⟨xs, ys, rfl⟩ := List.append_of_mem hd
  obtain ⟨xs', m, hl⟩ := exists_absorbLeft xs d
  obtain ⟨m', ys', hr⟩ := exists_absorbRight m ys
  exact mmRealloc_saved_iff ha.shape hf ha.first hl hr hsize hpos (ha.reliable hl hr hpos hend) hk
    hrun hp

/-- A call that returned gave what `mm_realloc` gives. -/
theorem World.Step.realloc {ptr : Nat} {ok : Bool} {stack : Nat → UInt8}
    (hstep : w.Step (.realloc ptr size ok stack) w') : size < 2 ^ 64 ∧ w.passable ptr ∧
      ∃ p, w.heap.mmRealloc ptr size ok stack = .ok (p, w'.heap) ∧
        w'.live = if size = 0 then w.drop ptr else if p = NULL then w.live
          else (p, size) :: w.drop ptr := by
  unfold World.Step at hstep
  dsimp only [World.step] at hstep
  split at hstep
  · rename_i hpre
    refine ⟨hpre.1, hpre.2, ?_⟩
    split at hstep
    · rename_i p h' hrun
      obtain rfl := Option.some.inj hstep
      exact ⟨p, hrun, rfl⟩
    · exact absurd hstep (by simp)
  · exact absurd hstep (by simp)

/-- **The contents of what is moved.** In every run in which no call gets memory from `sbrk` while
`end` is not the last block, a `mm_realloc` that returns a block saves the contents of the old one
and spares all other allocations, if and only if it does not read past the saved copy. -/
theorem mm_realloc_contents_iff {mem : Mem} {lo : Nat} (hlo : 0 < lo) (hlt : lo < 2 ^ 64)
    {ts : List (Transition World Call)} (hrun : Run World.Step (World.init mem lo) ts)
    (hend : ∀ t ∈ ts, t.pre.EndReliable t.label) :
    ∀ t ∈ ts, ∀ ptr m size ok stack p, t.label = .realloc ptr size ok stack →
      (ptr, m) ∈ t.pre.live → size ≠ 0 → p ≠ NULL →
        t.pre.heap.mmRealloc ptr size ok stack = .ok (p, t.post.heap) →
          ((t.pre.heap.Saved ptr m size ok p t.post.heap ∧ t.pre.Spares t.label t.post) ↔
            ¬ t.pre.heap.ReadsPast ptr size) := by
  have hinv := hrun.guarded (fun _ _ _ hI hC hs => Inv.step hI hC hs) (inv_init hlo hlt) hend
  intro t ht ptr m size ok stack p hlabel hlive hpos hp hresult
  have hstep := hrun.step_of_mem t ht
  rw [and_iff_left ((hinv t ht).1.spares (hend t ht) hstep)]
  obtain ⟨bs, ha⟩ := (hinv t ht).1.alive_of_mem hlive
  have hrel := hend t ht
  rw [hlabel] at hrel hstep
  exact ha.realloc_saved_iff hstep.realloc.1 hpos hlive hrel hresult hp

/-- Two allocations, and a third one freed between them. -/
def neighbours : List Call :=
  [.malloc 8 true, .malloc 8 true, .malloc 8 true, .write 4128 7, .free 4168]

def beforeMove : World :=
  (Run.final World.step (World.init (fun _ => 0) 4096) neighbours).get (by decide +kernel)

theorem mem_neighbours {call : Call} (hstep : beforeMove.Step call w') :
    ⟨beforeMove, call, w'⟩ ∈
      Run.trace World.step (World.init (fun _ => 0) 4096) (neighbours ++ [call]) :=
  Run.mem_trace (Option.some_get _).symm hstep

/-- The first of them grows to 48 bytes, which it has beside the free block. -/
def afterGrow : World :=
  (beforeMove.step (.realloc 4128 48 true fun _ => 1)).get (by decide +kernel)

/-- It grows to 100 bytes elsewhere. -/
def afterMove : World :=
  (beforeMove.step (.realloc 4128 100 true fun _ => 1)).get (by decide +kernel)

theorem mm_realloc_contents_iff_afterGrow :
    beforeMove.heap.Saved 4128 8 48 true 4128 afterGrow.heap := by
  have hstep : beforeMove.Step (.realloc 4128 48 true fun _ => 1) afterGrow :=
    (Option.some_get _).symm
  have hmem := mem_neighbours hstep
  obtain ⟨-, -, p, hresult, hlive⟩ := hstep.realloc
  have hlist : afterGrow.live = (4128, 48) :: beforeMove.drop 4128 := by decide +kernel
  have hp : p = 4128 := by
    rw [hlist, if_neg (by decide)] at hlive
    split at hlive
    · exact absurd (hlist.trans hlive) (by decide +kernel)
    · exact (Prod.mk.inj (List.cons.inj hlive).1).1.symm
  subst hp
  exact ((mm_realloc_contents_iff (by decide) (by decide) (Run.of_trace World.step _ _)
    (by decide +kernel) _ hmem 4128 8 48 true _ 4128 rfl (by decide +kernel) (by decide) (by decide)
    hresult).mpr (by decide +kernel)).1

/-- Byte 8 of the allocation that was moved comes from the stack. -/
theorem mm_realloc_reads_past : ∃ ts, Run World.Step (World.init (fun _ => 0) 4096) ts ∧
    ∃ t ∈ ts, ∃ ptr m size ok stack p, t.label = .realloc ptr size ok stack ∧
      (ptr, m) ∈ t.pre.live ∧ size ≠ 0 ∧ p ≠ NULL ∧
        t.pre.heap.mmRealloc ptr size ok stack = .ok (p, t.post.heap) ∧
          ¬ (t.pre.heap.Saved ptr m size ok p t.post.heap ∧ t.pre.Spares t.label t.post) := by
  have hstep : beforeMove.Step (.realloc 4128 100 true fun _ => 1) afterMove :=
    (Option.some_get _).symm
  have hmem := mem_neighbours hstep
  obtain ⟨-, -, p, hresult, hlive⟩ := hstep.realloc
  have hlist : afterMove.live = (4248, 100) :: beforeMove.drop 4128 := by decide +kernel
  have hp : p = 4248 := by
    rw [hlist, if_neg (by decide)] at hlive
    split at hlive
    · exact absurd (hlist.trans hlive) (by decide +kernel)
    · exact (Prod.mk.inj (List.cons.inj hlive).1).1.symm
  subst hp
  refine ⟨_, Run.of_trace World.step _ _, _, hmem, 4128, 8, 100, true, _, 4248, rfl,
    by decide +kernel, by decide, by decide, hresult, fun hsaved => ?_⟩
  have hbyte : afterMove.heap.mem (4248 + 8) ≠ 0 := by decide +kernel
  have hsize : (beforeMove.heap.hdr (4128 - 32)).size = 8 := by decide +kernel
  exact hbyte (hsaved.1.2.1 8 hsize.le (by decide))

end OsTools.MmAlloc

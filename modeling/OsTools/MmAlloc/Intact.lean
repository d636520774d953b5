import OsTools.MmAlloc.Program
/-!
# OsTools.MmAlloc.Intact

The list of blocks over whole runs. Every call keeps it chained, tiling the
region and free of adjacent free blocks. Not so `end`: a free block that absorbs
the last block from its left does not become `end`. `KeepsEnd` is the exact
condition under which a call leaves `end` on the last block.

## Proof shape

`Shape` holds whatever becomes of `end`, so that only the last conjunct of `Intact` is at
stake. When it is lost, it is lost by `mm_free` of the last block behind a free one
(`TailMerge`); a `mm_realloc` may do this and set `end` right again in its own allocation
(`Recovers`). `end_iff` computes `end` after each kind of step, by cases on `Effect`. The
theorem is an equivalence for runs, so that every state before the first call that loses
`end` is `Tidy`, and the states behind it do not matter.
-/

namespace OsTools.MmAlloc

open Heap

variable {h : Heap} {xs ys xs' ys' bs bs' : List Blk} {b c m m' : Blk} {size : Nat} {w w' : World}

/-- The list is well formed: chained both ways from `base` to `end`, tiling the
region, and without adjacent free blocks. -/
structure Heap.Intact (h : Heap) : Prop where
  base : h.base = headOr NULL h.blocks
  tiles : Tiled h.blocks h.lo h.brk
  chain : Chain h.hdr NULL h.blocks NULL
  end_ : h.end_ = lastOr NULL h.blocks
  coalesced : Coalesced h.blocks

theorem Shape.intact_iff (hs : Shape h bs) (hc : Coalesced bs) :
    h.Intact ↔ h.end_ = lastOr NULL bs := by
  constructor
  · intro hi
    have := hi.end_
    rwa [hs.blocks_eq] at this
  · intro he
    constructor <;> rw [hs.blocks_eq]
    · exact hs.base
    · exact hs.tiles
    · exact hs.chain
    · exact he
    · exact hc

/-! ### When `mm_free` leaves `end` behind -/

/-- The allocation at `ptr` is the last block and its predecessor is free. -/
def Heap.TailMerge (h : Heap) (ptr : Nat) : Prop :=
  let d := h.hdr (ptr - 32)
  d.next = NULL ∧ d.prev ≠ NULL ∧ (h.hdr d.prev).free = 1

instance (h : Heap) (ptr : Nat) : Decidable (h.TailMerge ptr) :=
  inferInstanceAs (Decidable (_ ∧ _ ∧ _))

/-- The same of the block between `xs` and `ys`. -/
def AtTail (xs ys : List Blk) : Prop := ys = [] ∧ ∃ p ∈ xs.getLast?, p.free = true

theorem tailMerge_iff (hs : Shape h (xs ++ b :: ys)) :
    h.TailMerge (b.addr + 32) ↔ AtTail xs ys := by
  unfold Heap.TailMerge AtTail
  rw [Nat.add_sub_cancel, hs.header]
  dsimp only
  refine and_congr ?_ ?_
  · cases ys with
    | nil => simp
    | cons y ys => simpa using hs.addr_ne_null (b := y) (by simp)
  · rcases List.eq_nil_or_concat xs with rfl | ⟨zs, p, rfl⟩
    · simp
    · rw [List.concat_eq_append] at hs ⊢
      have hs' : Shape h (zs ++ p :: b :: ys) := by simpa using hs
      have hlast : lastOr NULL (zs ++ [p]) = p.addr := by simp
      rw [hlast, hs'.header]
      cases hp : p.free <;> simp [hp, hs'.addr_ne_null (b := p) (by simp)]

/-- `end` after `mm_free`. -/
theorem release_end (hne : ∀ p ∈ xs.getLast?, p.addr ≠ b.addr) (hl : AbsorbLeft xs b xs' m)
    (hr : AbsorbRight m ys m' ys') :
    (if ys ≠ [] ∧ ys' = [] then m.addr else lastOr NULL (xs ++ b :: ys)) =
      lastOr NULL (xs' ++ m' :: ys') ↔ ¬ AtTail xs ys := by
  have hm : m'.addr = m.addr := by
    rcases hr.addr_mem with hm | hm <;> exact hm.1
  cases hr with
  | @merge n _ _ =>
      cases ys' with
      | nil => simp [AtTail, Blk.merge]
      | cons y ys' => simp [AtTail]
  | stay _ =>
      rw [if_neg (by simp)]
      cases ys with
      | cons y ys => simp [AtTail]
      | nil =>
          cases hl with
          | stay hp =>
              have hno : ¬ AtTail xs [] := by
                rintro ⟨-, p, hpm, hpf⟩
                rw [hp p hpm] at hpf
                exact absurd hpf (by simp)
              simp [hno]
          | @merge _ p _ hp =>
              have hyes : AtTail (xs' ++ [p]) [] := ⟨rfl, p, by simp, hp⟩
              have hpb : p.addr ≠ b.addr := hne p (by simp)
              simpa [hyes, Blk.merge] using hpb.symm

theorem Shape.last_ne (hs : Shape h (xs ++ b :: ys)) : ∀ p ∈ xs.getLast?, p.addr ≠ b.addr := by
  intro p hp
  have := hs.parts.1.valid (List.mem_of_getLast? hp)
  omega

/-! ### When `mm_realloc` does -/

/-- The call moves `end` to the end of the list itself: the search passes over
all blocks but the one that absorbs the freed block (`prev`), and that one is
too small or is cut in two. -/
def Recovers (size merged prev : Nat) (bs : List Blk) : Prop :=
  (∀ d ∈ bs, d.addr ≠ prev → d.fits size = false) ∧ (merged < size ∨ size + 32 ≤ merged)

instance (size merged prev : Nat) (bs : List Blk) : Decidable (Recovers size merged prev bs) :=
  inferInstanceAs (Decidable (_ ∧ _))

/-- A block that fits where the predecessor is too small is another one. -/
theorem not_recovers_of_fits (hs : Shape h bs) {p d : Blk} {merged : Nat} (hp : p ∈ bs) (hd : d ∈ bs)
    (hne : d ≠ p) (hfit : d.fits size = true) : ¬ Recovers size merged p.addr bs := by
  rintro ⟨hnone, -⟩
  have hapart := hs.apart hd hp hne
  have := hnone d hd (by unfold Apart at hapart; omega)
  rw [hfit] at this
  exact absurd this (by simp)

theorem lastOr_eq_of_mem {n : Nat} {p : Blk} (hp : p ∈ xs.getLast?) : lastOr n xs = p.addr := by
  rcases List.eq_nil_or_concat xs with rfl | ⟨zs, q, rfl⟩
  · exact absurd hp (by simp)
  · obtain rfl : q = p := by simpa using hp
    simp

theorem append_last_cases {us vs : List Blk} {r : Blk} (h : xs ++ [m] = us ++ r :: vs) :
    (vs = [] ∧ r = m ∧ us = xs) ∨ ∃ vs', vs = vs' ++ [m] ∧ xs = us ++ r :: vs' := by
  rcases List.eq_nil_or_concat vs with rfl | ⟨vs', v, rfl⟩
  · obtain ⟨rfl, hm⟩ := List.append_inj' h rfl
    exact Or.inl ⟨rfl, (List.cons.inj hm).1.symm, rfl⟩
  · rw [List.concat_eq_append] at h ⊢
    have h' : xs ++ [m] = (us ++ r :: vs') ++ [v] := by simpa using h
    obtain ⟨hxs, hm⟩ := List.append_inj' h' rfl
    obtain rfl := (List.cons.inj hm).1
    exact Or.inr ⟨vs', rfl, hxs⟩

/-- The merged block lies last and `end` points into it. -/
theorem Grant.end_iff {brk e' : Nat} {p : Blk} (hs : Shape h (xs ++ p :: [b]))
    (hp : p.free = true) (hb : b.free = false) (hfit : size ≤ (p.merge b).size)
    (hg : Grant size brk b.addr (xs ++ [p.merge b]) bs' c e') :
    e' = lastOr NULL bs' ↔ Recovers size (p.merge b).size p.addr (xs ++ p :: [b]) := by
  have hpb : p.addr ≠ b.addr := by
    have := hs.parts.2.1
    omega
  have hother : ∀ d ∈ xs, d.fits size = true →
      ¬ Recovers size (p.merge b).size p.addr (xs ++ p :: [b]) := fun d hd hdf => by
    refine not_recovers_of_fits hs (by simp) (by simp [hd]) ?_ hdf
    rintro rfl
    have := hs.parts.1.valid hd
    omega
  generalize hbs : xs ++ [p.merge b] = bs at hg
  cases hg with
  | @whole us vs r hus hr hsmall =>
      rcases append_last_cases hbs with ⟨rfl, rfl, rfl⟩ | ⟨vs', rfl, rfl⟩
      · refine iff_of_false (by simpa [Blk.merge] using hpb.symm) ?_
        rintro ⟨-, hsz⟩
        omega
      · exact iff_of_false (by simpa [Blk.merge] using hpb.symm) (hother r (by simp) hr)
  | @cut us vs r hus hr hbig =>
      rcases append_last_cases hbs with ⟨rfl, rfl, rfl⟩ | ⟨vs', rfl, rfl⟩
      · refine iff_of_true (by simp) ⟨fun d hd hne => ?_, Or.inr hbig⟩
        rcases List.mem_append.mp hd with hd | hd
        · exact hus d hd
        · rcases List.mem_cons.mp hd with rfl | hd
          · exact absurd rfl hne
          · rw [List.mem_singleton.mp hd, Blk.fits, hb, Bool.false_and]
      · exact iff_of_false (by simpa [Blk.merge] using hpb.symm) (hother r (by simp) hr)
  | new hnone =>
      subst hbs
      have hmfits : (p.merge b).fits size = true := Blk.fits_iff.mpr ⟨rfl, hfit⟩
      have := hnone (p.merge b) (by simp)
      rw [hmfits] at this
      exact absurd this (by simp)

theorem Moved.coalesced {brk e e' : Nat} (hm : Moved size brk e xs b ys bs' c e')
    (hc : Coalesced (xs ++ b :: ys)) : Coalesced bs' := by
  cases hm with
  | within hl hr _ hg => exact hg.coalesced (hc.release hl hr)
  | away _ _ _ hg _ _ hl₁ hr₁ => exact (hg.coalesced hc).release hl₁ hr₁

/-- `end` after `mm_realloc` is the last block just if the block was not the one at the tail,
or the search for room has come by the tail again. The cases are those of `Moved`: the merged
block is large enough, or the search has found another one. -/
theorem Moved.end_iff {e' : Nat} (hs : Shape h (xs ++ b :: ys)) (hb : b.free = false)
    (hm : Moved size h.brk (lastOr NULL (xs ++ b :: ys)) xs b ys bs' c e') :
    e' = lastOr NULL bs' ↔ (¬ AtTail xs ys ∨
      Recovers size (h.mergedSize (b.addr + 32)) (lastOr NULL xs) (xs ++ b :: ys)) := by
  cases hm with
  | @within xs' ys' _ m m' _ _ hl hr hfit hg =>
      rw [mergedSize_eq hs hl hr]
      by_cases htail : AtTail xs ys
      · obtain ⟨rfl, p, hp, hpf⟩ := htail
        have hmm : m' = m ∧ ys' = [] := by
          cases hr
          exact ⟨rfl, rfl⟩
        obtain ⟨rfl, rfl⟩ := hmm
        cases hl with
        | stay hno =>
            rw [hno p hp] at hpf
            exact absurd hpf (by simp)
        | @merge _ q _ hq =>
            have hs' : Shape h (xs' ++ q :: [b]) := by simpa using hs
            have htail : AtTail (xs' ++ [q]) [] := ⟨rfl, q, by simp, hq⟩
            simp only [ne_eq, not_true_eq_false, false_and, if_false, lastOr_append, lastOr_cons,
              lastOr_nil] at hg ⊢
            rw [hg.end_iff hs' hq hb hfit]
            simp [htail]
      · have he := (release_end hs.last_ne hl hr).mpr htail
        exact iff_of_true (hg.end_last he) (Or.inl htail)
  | @away xs' ys' xs₁ ys₁ xs₁' ys₁' m m' m₁ m₁' _ e₁ hl hr hfit hg hlast hhead hl₁ hr₁ =>
      have hne : ∀ p ∈ xs₁.getLast?, p.addr ≠ b.addr := by
        rw [hlast]
        exact hs.last_ne
      rw [mergedSize_eq hs hl hr, hg.end_last rfl, release_end hne hl₁ hr₁]
      rcases hhead with ⟨hhead, hfits⟩ | ⟨rfl, rfl, hnone⟩
      · have htail : AtTail xs₁ ys₁ ↔ AtTail xs ys := by
          unfold AtTail
          rw [hlast, ← List.head?_eq_none_iff, hhead, List.head?_eq_none_iff]
        rw [htail]
        refine ⟨Or.inl, fun hor hat => hor.elim (fun hno => hno hat) fun hrec => ?_⟩
        -- the search has taken a block other than the free predecessor
        obtain ⟨rfl, p, hp, -⟩ := hat
        obtain ⟨d, hd, hdf⟩ := hfits rfl
        have hpsmall := hl.neighbour_small hfit hr p hp
        have hdp : d ≠ p := by
          rintro rfl
          rw [hdf] at hpsmall
          exact absurd hpsmall (by simp)
        have hpm : p ∈ xs ++ [b] := List.mem_append_left _ (List.mem_of_getLast? hp)
        rw [lastOr_eq_of_mem hp] at hrec
        exact not_recovers_of_fits hs hpm hd hdp hdf hrec
      · refine iff_of_true ?_ (Or.inr ⟨fun d hd _ => hnone d hd, Or.inl hfit⟩)
        rintro ⟨hnil, -⟩
        exact absurd hnil (by simp)

/-! ### Runs -/

namespace World

/-- On a call that is not a `mm_realloc` in disguise: it leaves `end` on the last
block. -/
def SparesEnd (w : World) : Call → Prop
  | .malloc size ok =>
      w.heap.first = true → size = 0 ∨ (w.heap.sbrk (add64 size sizeofBlock) ok).isSome
  | .realloc ptr size _ _ =>
      ¬ w.heap.TailMerge ptr ∨
        Recovers size (w.heap.mergedSize ptr) (w.heap.hdr (ptr - 32)).prev w.heap.blocks
  | .free ptr => ptr = NULL ∨ ¬ w.heap.TailMerge ptr
  | .write _ _ => True

instance (w : World) : (call : Call) → Decidable (w.SparesEnd call)
  | .malloc _ _ => inferInstanceAs (Decidable (_ → _ ∨ _))
  | .realloc _ _ _ _ => inferInstanceAs (Decidable (_ ∨ _))
  | .free _ => inferInstanceAs (Decidable (_ ∨ _))
  | .write _ _ => inferInstanceAs (Decidable True)

/-- The first allocation gets its memory, and a free block that absorbs the
last block from its left becomes `end` before the call returns. -/
def KeepsEnd (w : World) (call : Call) : Prop := w.SparesEnd call.normal

instance (w : World) (call : Call) : Decidable (w.KeepsEnd call) :=
  inferInstanceAs (Decidable (w.SparesEnd _))

end World

namespace Effect

variable {call : Call}

theorem coalesced (hc : Coalesced bs) (he : Effect w bs call w' bs') : Coalesced bs' := by
  cases he with
  | idle _ => exact hc
  | malloc hg => exact hg.grant.coalesced hc
  | realloc hbs _ hr =>
      subst hbs
      exact hr.moved.coalesced hc
  | free hbs hl hr _ _ =>
      subst hbs
      exact hc.release hl hr
  | write _ => exact hc

/-- The step leaves `end` on the last block exactly when it spares it. -/
theorem end_iff (ha : Alive w bs) (hend : w.heap.end_ = lastOr NULL bs)
    (he : Effect w bs call w' bs') : w'.heap.end_ = lastOr NULL bs' ↔ w.SparesEnd call := by
  cases he with
  | idle hidle =>
      refine iff_of_true hend ?_
      cases call with
      | malloc size ok => exact fun hf => absurd hf (by simp [ha.first])
      | realloc ptr size ok stack =>
          refine Or.inr ⟨?_, Or.inl hidle.1⟩
          rw [ha.shape.blocks_eq]
          exact fun d hd _ => hidle.2 d hd
      | free ptr => exact Or.inl hidle
      | write addr byte => trivial
  | malloc hg =>
      exact iff_of_true (hg.grant.end_last hend) fun hf => absurd hf (by simp [ha.first])
  | realloc hbs hb hr =>
      subst hbs
      have hmoved := hr.moved
      rw [hend] at hmoved
      rw [hmoved.end_iff ha.shape hb]
      dsimp only [World.SparesEnd]
      rw [tailMerge_iff ha.shape, Nat.add_sub_cancel, ha.shape.header, ha.shape.blocks_eq]
  | free hbs hl hr _ hend' =>
      subst hbs
      rw [hend', hend, release_end ha.shape.last_ne hl hr]
      dsimp only [World.SparesEnd]
      rw [tailMerge_iff ha.shape]
      simp [NULL]
  | write _ => exact iff_of_true hend trivial

end Effect

/-- Every state of a program none of whose calls has lost `end`. -/
inductive Tidy (w : World) : Prop
  | fresh (hf : Fresh w)
  | alive {bs : List Blk} (ha : Alive w bs) (hend : w.heap.end_ = lastOr NULL bs)
      (hc : Coalesced bs)

theorem Fresh.intact (hf : Fresh w) : w.heap.Intact := by
  have hblocks : w.heap.blocks = [] := by
    unfold Heap.blocks
    rw [hf.base, Heap.walk, if_pos (Or.inl rfl)]
  constructor <;> rw [hblocks]
  · exact hf.base
  · exact hf.empty
  · trivial
  · exact hf.end_
  · exact List.isChain_nil

theorem Failed.not_intact (hf : Failed w) : ¬ w.heap.Intact := by
  intro hi
  have hbrk := hf.brk_lt
  have hblocks : w.heap.blocks = [] := by
    unfold Heap.blocks
    rw [hf.base, Heap.walk, if_pos (Or.inr ?_)]
    rw [← hf.empty] at hbrk
    unfold Heap.accessible sbrkFailed
    rw [← hf.empty]
    omega
  have hbase := hi.base
  rw [hblocks, hf.base] at hbase
  exact absurd hbase (by decide)

theorem tidy_init {mem : Mem} {lo : Nat} (hlo : 0 < lo) (hlt : lo < 2 ^ 64) :
    Tidy (World.init mem lo) :=
  .fresh ⟨hlo, hlt, rfl, rfl, rfl, rfl, rfl⟩

/-- The first allocation sets up the region, or fails for good. -/
theorem Fresh.step_cases (hf : Fresh w) {call : Call} (hstep : w.Step call w') :
    (w.KeepsEnd call ∧ Tidy w') ∨ (¬ w.KeepsEnd call ∧ Failed w') := by
  have he := hf.step hstep
  unfold World.KeepsEnd
  generalize call.normal = call at he ⊢
  cases he with
  | idle hcall =>
      refine Or.inl ⟨?_, .fresh hf⟩
      rcases hcall with rfl | ⟨ok, rfl⟩
      · exact Or.inl rfl
      · exact fun _ => Or.inl rfl
  | failed hpos hnone hw =>
      refine Or.inr ⟨fun hkeep => ?_, hw⟩
      rcases hkeep hf.first with hzero | hsome
      · exact hpos hzero
      · rw [hnone] at hsome
        exact absurd hsome (by simp)
  | start hsome hw hend =>
      exact Or.inl ⟨fun _ => Or.inr hsome, .alive hw hend (List.isChain_singleton _)⟩

/-- A step restores the list exactly when it keeps `end`. -/
theorem Tidy.step_iff (ht : Tidy w) {call : Call} (hstep : w.Step call w') :
    w'.heap.Intact ↔ w.KeepsEnd call := by
  cases ht with
  | fresh hf =>
      rcases hf.step_cases hstep with ⟨hk, ht'⟩ | ⟨hk, hw⟩
      · refine iff_of_true ?_ hk
        cases ht' with
        | fresh hf' => exact hf'.intact
        | alive ha hend hc => exact (ha.shape.intact_iff hc).mpr hend
      · exact iff_of_false hw.not_intact hk
  | alive ha hend hc =>
      have hrel : w.EndReliable call := fun _ => by rw [ha.shape.blocks_eq, hend]
      obtain ⟨bs', he⟩ := ha.step_effect hrel hstep
      exact ((he.alive ha).shape.intact_iff (he.coalesced hc)).trans (he.end_iff ha hend)

theorem Tidy.step (ht : Tidy w) {call : Call} (hkeep : w.KeepsEnd call) (hstep : w.Step call w') :
    Tidy w' := by
  cases ht with
  | fresh hf => exact (hf.step_cases hstep).elim And.right fun h => absurd hkeep h.1
  | alive ha hend hc =>
      have hrel : w.EndReliable call := fun _ => by rw [ha.shape.blocks_eq, hend]
      obtain ⟨bs', he⟩ := ha.step_effect hrel hstep
      exact .alive (he.alive ha) ((he.end_iff ha hend).mpr hkeep) (he.coalesced hc)

/-- **The list of blocks.** After every call of a run the list is intact, if and only if every
call of the run keeps `end`. A call that keeps it leads from a heap in use to one (`Alive`);
after one that does not, the pointer is another one than the last block, by which the list is
not intact. -/
theorem mm_alloc_intact_iff {mem : Mem} {lo : Nat} (hlo : 0 < lo) (hlt : lo < 2 ^ 64)
    {ts : List (Transition World Call)} (hrun : Run World.Step (World.init mem lo) ts) :
    (∀ t ∈ ts, t.post.heap.Intact) ↔ ∀ t ∈ ts, t.pre.KeepsEnd t.label :=
  hrun.forall_iff (fun _ _ _ ht hs => ht.step_iff hs) (fun _ _ _ ht hk hs => ht.step hk hs)
    (tidy_init hlo hlt)

theorem mm_alloc_intact_iff_reuse :
    (Run.trace World.step (World.init (fun _ => 0) 4096) (reuse.take 8)).length = 8 ∧
      ∀ t ∈ Run.trace World.step (World.init (fun _ => 0) 4096) (reuse.take 8),
        t.post.heap.Intact :=
  ⟨by decide +kernel,
    (mm_alloc_intact_iff (by decide) (by decide) (Run.of_trace World.step _ (reuse.take 8))).mpr
      (by decide +kernel)⟩

/-- After the fourth call of `staleEnd`, `end` is no block. -/
theorem stale_end_not_intact : ∃ ts, Run World.Step (World.init (fun _ => 0) 4096) ts ∧
    ∃ t ∈ ts, ¬ t.post.heap.Intact := by
  refine ⟨_, Run.of_trace World.step _ (staleEnd.take 4), ?_⟩
  have hlast : ∃ t ∈ Run.trace World.step (World.init (fun _ => 0) 4096) (staleEnd.take 4),
      t.post.heap.end_ ≠ lastOr NULL t.post.heap.blocks := by
    decide +kernel
  obtain ⟨t, ht, hne⟩ := hlast
  exact ⟨t, ht, fun hi => hne hi.end_⟩

end OsTools.MmAlloc

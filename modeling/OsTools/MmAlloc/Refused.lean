import OsTools.MmAlloc.Contents
/-!
# OsTools.MmAlloc.Refused

Calls that `sbrk` refuses. A later `mm_malloc` leaves everything as it was. The first one has
already set `first` to 0 and leaves `base` at -1, so that the next one walks a list that is not
there: only the calls after a first allocation that succeeded may fail without a trace
(`mm_alloc_refused_iff`).

That `first` is 1 before the first call only is an invariant of any run, whatever has become of
the list of blocks.

## Proof shape

That a refused call has no effect is a statement about what programs can see: `Alike`
compares all sequences of calls from two states. In one direction the states are equal but
for what `sbrk` decides, which is read off `extend`. In the other one, the call was the
first: then there is a sequence of calls that tells the states apart, a single `mm_malloc`,
since the search would start at `(Block *) -1`.

`Begun` needs no list of blocks: it follows `first` through every write of every function.
-/

namespace OsTools.MmAlloc

open Heap

variable {h : Heap} {bs : List Blk} {size : Nat} {ok : Bool} {call : Call} {w w' : World}

/-! ### `first` -/

namespace Heap

/-- The first call has been made. -/
def Begun (h : Heap) : Prop := h.first = false

/-- A write to memory keeps the globals. -/
theorem Begun.write (hb : h.Begun) (a n v : Nat) : Ensures (h.write a n v) Begun := by
  unfold Heap.write
  split
  · exact .ok hb
  · exact .error

theorem Begun.memset (hb : h.Begun) (a n : Nat) : Ensures (h.memset a n) Begun := by
  unfold Heap.memset
  split
  · exact .ok hb
  · exact .error

theorem Begun.memcpy (hb : h.Begun) (a n : Nat) (buffer : Nat → UInt8) :
    Ensures (h.memcpy a n buffer) Begun := by
  unfold Heap.memcpy
  split
  · exact .ok hb
  · exact .error

theorem Begun.setPrevIf (hb : h.Begun) (q v : Nat) : Ensures (h.setPrevIf q v) Begun := by
  unfold Heap.setPrevIf
  split
  · exact .ok hb
  · exact hb.write _ _ _

/-! #### `mm_malloc` -/

theorem Begun.cutRest (hb : h.Begun) (b new size : Nat) : Ensures (h.cutRest b new size) Begun := by
  unfold Heap.cutRest
  refine (hb.write _ _ _).bind fun h₁ h₁b => (Ensures.any _).bind fun _ _ =>
    (h₁b.write _ _ _).bind fun h₂ h₂b => (h₂b.write _ _ _).bind fun h₃ h₃b =>
    (Ensures.any _).bind fun _ _ => (h₃b.write _ _ _).bind fun h₄ h₄b =>
    (Ensures.any _).bind fun _ _ => (h₄b.setPrevIf _ _).bind fun h₅ h₅b =>
    (h₅b.write _ _ _).bind fun h₆ h₆b => (Ensures.any _).bind fun _ _ => ?_
  split
  · exact .ok h₆b
  · exact .ok h₆b

theorem Begun.split (hb : h.Begun) (b size : Nat) :
    Ensures (h.split b size) fun r => r.2.Begun := by
  unfold Heap.split
  exact (hb.cutRest _ _ _).bind fun h₁ h₁b => (Ensures.any _).bind fun _ _ =>
    (h₁b.memset _ _).bind fun h₂ h₂b => (h₂b.write _ _ _).bind fun h₃ h₃b =>
    (h₃b.write _ _ _).bind fun h₄ h₄b => (Ensures.any _).bind fun _ _ =>
    (h₄b.memset _ _).bind fun h₅ h₅b => .ok h₅b

theorem Begun.place (hb : h.Begun) (b size : Nat) :
    Ensures (h.place b size) fun r => r.2.Begun := by
  unfold Heap.place
  refine (Ensures.any _).bind fun _ _ => ?_
  split
  · exact hb.split b size
  · unfold Heap.takeWhole
    exact (hb.write _ _ _).bind fun h₁ h₁b => (Ensures.any _).bind fun _ _ =>
      (h₁b.memset _ _).bind fun h₂ h₂b => .ok h₂b

theorem Begun.extend (hb : h.Begun) (size : Nat) (ok : Bool) :
    Ensures (h.extend size ok) fun r => r.2.Begun := by
  unfold Heap.extend
  split
  · exact .ok hb
  · rename_i new h₀ hsbrk
    have h₀b : h₀.Begun := by
      rw [(sbrk_eq_some hsbrk).2.1]
      exact hb
    exact (h₀b.write _ _ _).bind fun h₁ h₁b => (h₁b.write _ _ _).bind fun h₂ h₂b =>
      (h₂b.write _ _ _).bind fun h₃ h₃b => (h₃b.write _ _ _).bind fun h₄ h₄b =>
      (h₄b.write _ _ _).bind fun h₅ h₅b => (Ensures.any _).bind fun _ _ =>
      (Begun.memset (h := { h₅ with end_ := new }) h₅b _ _).bind fun h₆ h₆b => .ok h₆b

theorem Begun.mmMalloc (hb : h.Begun) (size : Nat) (ok : Bool) :
    Ensures (h.mmMalloc size ok) fun r => r.2.Begun := by
  unfold Heap.mmMalloc
  split
  · exact .ok hb
  · rw [if_neg (by simp [show h.first = false from hb])]
    refine (Ensures.any _).bind fun r _ => ?_
    cases r with
    | some b => exact hb.place b size
    | none => exact hb.extend size ok

/-! #### `mm_free` and `mm_realloc` -/

theorem Begun.mergePrev (hb : h.Begun) (b : Nat) :
    Ensures (h.mergePrev b) fun r => r.2.Begun := by
  unfold Heap.mergePrev
  refine (Ensures.any _).bind fun p _ => ?_
  split
  · exact .ok hb
  · refine (Ensures.any _).bind fun _ _ => ?_
    split
    · exact (Ensures.any _).bind fun _ _ => (Ensures.any _).bind fun _ _ =>
        (hb.write _ _ _).bind fun h₁ h₁b => (Ensures.any _).bind fun _ _ =>
        (h₁b.write _ _ _).bind fun h₂ h₂b => (Ensures.any _).bind fun _ _ =>
        (h₂b.setPrevIf _ _).bind fun h₃ h₃b => .ok h₃b
    · exact .ok hb

theorem Begun.mergeNext (hb : h.Begun) (b : Nat) : Ensures (h.mergeNext b) Begun := by
  unfold Heap.mergeNext
  refine (Ensures.any _).bind fun n _ => ?_
  split
  · exact .ok hb
  · refine (Ensures.any _).bind fun _ _ => ?_
    split
    · refine (Ensures.any _).bind fun _ _ => (Ensures.any _).bind fun _ _ =>
        (hb.write _ _ _).bind fun h₁ h₁b => (Ensures.any _).bind fun _ _ =>
        (h₁b.write _ _ _).bind fun h₂ h₂b => (Ensures.any _).bind fun _ _ =>
        (h₂b.setPrevIf _ _).bind fun h₃ h₃b => (Ensures.any _).bind fun _ _ => ?_
      split
      · exact .ok h₃b
      · exact .ok h₃b
    · exact .ok hb

theorem Begun.mmFree (hb : h.Begun) (ptr : Nat) : Ensures (h.mmFree ptr) Begun := by
  unfold Heap.mmFree
  split
  · exact .ok hb
  · exact (hb.write _ _ _).bind fun h₁ h₁b => (h₁b.mergePrev _).bind fun r hr => hr.mergeNext _

theorem Begun.mmRealloc (hb : h.Begun) (ptr size : Nat) (ok : Bool) (stack : Nat → UInt8) :
    Ensures (h.mmRealloc ptr size ok stack) fun r => r.2.Begun := by
  unfold Heap.mmRealloc
  split
  · exact (hb.mmFree ptr).bind fun h₁ h₁b => .ok h₁b
  · split
    · exact hb.mmMalloc size ok
    · refine (Ensures.any _).bind fun _ _ => (Ensures.any _).bind fun _ _ =>
        (Ensures.any _).bind fun _ _ => (Ensures.any _).bind fun _ _ =>
        (Ensures.any _).bind fun _ _ => (Ensures.any _).bind fun _ _ => ?_
      split
      · unfold Heap.freeThenMalloc
        exact (hb.mmFree ptr).bind fun h₁ h₁b => (h₁b.mmMalloc size ok).bind fun r hr =>
          (hr.memcpy _ _ _).bind fun h₂ h₂b => .ok h₂b
      · unfold Heap.mallocThenFree
        refine (hb.mmMalloc size ok).bind fun r hr => ?_
        dsimp only
        split
        · exact .ok hr
        · exact (hr.mmFree ptr).bind fun h₁ h₁b => (Ensures.any _).bind fun _ _ =>
            (h₁b.memcpy _ _ _).bind fun h₂ h₂b => .ok h₂b

end Heap

/-- The first call has been made, and so it has after any other call: no function sets the
flag again. -/
theorem World.Step.begun (hstep : w.Step call w') (hb : w.heap.Begun) : w'.heap.Begun := by
  unfold World.Step at hstep
  cases call with
  | malloc size ok =>
      dsimp only [World.step] at hstep
      split at hstep
      · split at hstep
        · rename_i p h' hrun
          obtain rfl := Option.some.inj hstep
          exact hb.mmMalloc size ok _ hrun
        · exact absurd hstep (by simp)
      · exact absurd hstep (by simp)
  | realloc ptr size ok stack =>
      obtain ⟨-, -, p, hrun, -⟩ := World.Step.realloc hstep
      exact hb.mmRealloc ptr size ok stack _ hrun
  | free ptr =>
      dsimp only [World.step] at hstep
      split at hstep
      · split at hstep
        · rename_i h' hrun
          obtain rfl := Option.some.inj hstep
          exact hb.mmFree ptr _ hrun
        · exact absurd hstep (by simp)
      · exact absurd hstep (by simp)
  | write addr byte =>
      dsimp only [World.step] at hstep
      split at hstep
      · obtain rfl := Option.some.inj hstep
        exact hb
      · exact absurd hstep (by simp)

/-- Whatever has been done to the heap, before the first call it is as it was set up. -/
theorem begun_or_fresh {mem : Mem} {lo : Nat} (hlo : 0 < lo) (hlt : lo < 2 ^ 64)
    {ts : List (Transition World Call)} (hrun : Run World.Step (World.init mem lo) ts) :
    ∀ t ∈ ts, Fresh t.pre ∨ t.pre.heap.Begun := by
  have hinv := hrun.invariant (I := fun w => Fresh w ∨ w.heap.Begun) (fun w call w' hw hstep => by
    rcases hw with hf | hb
    · have he := hf.step hstep
      generalize call.normal = call at he
      cases he with
      | idle _ => exact Or.inl hf
      | failed _ _ hw => exact Or.inr hw.first
      | start _ hw _ => exact Or.inr hw.first
    · exact Or.inr (hstep.begun hb)) (Or.inl ⟨hlo, hlt, rfl, rfl, rfl, rfl, rfl⟩)
  exact fun t ht => (hinv t ht).1

/-! ### What a program can tell -/

namespace World

/-- The live allocations with their bytes. -/
def contents (w : World) : List ((Nat × Nat) × List UInt8) :=
  w.live.map fun r => (r, (List.range r.2).map fun i => w.heap.mem (r.1 + i))

/-- What a program sees after each of its calls, up to the first that does not return. -/
def observe (w : World) : List Call → List (List ((Nat × Nat) × List UInt8))
  | [] => []
  | call :: calls =>
      match w.step call with
      | none => []
      | some w' => w'.contents :: observe w' calls

/-- No sequence of calls tells the two apart. -/
def Alike (w w' : World) : Prop := ∀ calls, w.observe calls = w'.observe calls

/-- `mm_malloc (size)` asks `sbrk` for memory, which is refused. -/
def Refused (w : World) (size : Nat) (ok : Bool) : Prop :=
  size ≠ 0 ∧ (w.heap.first = true ∨
    w.heap.firstFit size (w.heap.brk - w.heap.lo + 1) w.heap.base = .ok none) ∧
      w.heap.sbrk (add64 size sizeofBlock) ok = none

instance (w : World) (size : Nat) (ok : Bool) : Decidable (w.Refused size ok) :=
  inferInstanceAs (Decidable (_ ∧ _ ∧ _))

end World

/-- A refused call returns `NULL`. -/
theorem World.Refused.eq (hr : w.Refused size ok) : w.heap.mmMalloc size ok =
    .ok (NULL, if w.heap.first = true then { w.heap with first := false, base := sbrkFailed }
      else w.heap) := by
  obtain ⟨hpos, hwhere, hnone⟩ := hr
  unfold Heap.mmMalloc
  rw [if_neg hpos]
  by_cases hfirst : w.heap.first = true
  · have hbegun : { w.heap with first := false }.sbrk (add64 size sizeofBlock) ok = none := by
      rw [← Option.not_isSome_iff_eq_none, sbrk_begun, hnone]
      simp
    rw [if_pos hfirst, if_pos hfirst]
    unfold Heap.startHeap
    dsimp only
    rw [hbegun]
  · rw [if_neg hfirst, if_neg hfirst, hwhere.resolve_left hfirst, ok_bind]
    unfold Heap.extend
    dsimp only
    rw [hnone]

/-- A call to `mm_malloc`, also by way of `mm_realloc`. -/
theorem World.Step.malloc (hstep : w.Step call w') (hcall : call.normal = .malloc size ok) :
    ∃ p, w.heap.mmMalloc size ok = .ok (p, w'.heap) ∧ (p = NULL → w'.live = w.live) := by
  cases call with
  | malloc size' ok' =>
      obtain ⟨rfl, rfl⟩ := Call.malloc.inj hcall
      unfold World.Step at hstep
      dsimp only [World.step] at hstep
      split at hstep
      · split at hstep
        · rename_i p h' hrun
          obtain rfl := Option.some.inj hstep
          exact ⟨p, hrun, fun hp => if_pos hp⟩
        · exact absurd hstep (by simp)
      · exact absurd hstep (by simp)
  | realloc ptr size' ok' stack =>
      obtain ⟨-, -, p, hrun, hlive⟩ := World.Step.realloc hstep
      unfold Call.normal at hcall
      dsimp only at hcall
      split at hcall
      · exact absurd hcall (by simp)
      · rename_i hpos
        split at hcall
        · rename_i hnull
          obtain ⟨rfl, rfl⟩ := Call.malloc.inj hcall
          unfold Heap.mmRealloc at hrun
          rw [if_neg hpos, if_pos hnull] at hrun
          refine ⟨p, hrun, fun hp => ?_⟩
          rw [hlive, if_neg hpos, if_pos hp]
        · exact absurd hcall (by simp)
  | free ptr => exact absurd hcall (by simp [Call.normal])
  | write addr byte => exact absurd hcall (by simp [Call.normal])

/-- Before the first call an allocation returns, whatever `sbrk` decides. -/
theorem Fresh.malloc_returns (hf : Fresh w) (hpos : size ≠ 0) (hsize : size + 32 < 2 ^ 63) :
    (w.step (.malloc size ok)).isSome := by
  have hrun : ∃ r, w.heap.mmMalloc size ok = .ok r := by
    unfold Heap.mmMalloc
    rw [if_neg hpos, if_pos hf.first]
    rcases @sbrk_of_small size ok hsize { w.heap with first := false } with hnone | ⟨hsome, hlt⟩
    · unfold Heap.startHeap
      dsimp only
      rw [hnone]
      exact ⟨_, rfl⟩
    · obtain ⟨h', hgrow, -⟩ := startHeap_grows hf.lo_pos hf.empty hsome hlt
      exact ⟨_, hgrow⟩
  obtain ⟨r, hrun⟩ := hrun
  dsimp only [World.step]
  rw [if_pos (by omega), hrun]
  rfl

/-- After a first call that failed no allocation returns. -/
theorem Failed.not_alike (hf : Failed w') (hw : Fresh w) : ¬ w.Alike w' := by
  intro halike
  have hsame := halike [.malloc 1 true]
  have hstuck : w'.step (.malloc 1 true) = none := by
    dsimp only [World.step]
    rw [if_pos (by decide), hf.malloc_stuck (by decide)]
  obtain ⟨w₁, hstep⟩ := Option.isSome_iff_exists.mp
    (@Fresh.malloc_returns 1 true w hw (by decide) (by decide))
  unfold World.observe at hsame
  rw [hstep, hstuck] at hsame
  exact absurd hsame (by simp)

/-- A `mm_realloc` of a live allocation that returns `NULL`. -/
theorem Alive.realloc_null (ha : Alive w bs) {ptr : Nat} {stack : Nat → UInt8} {h' : Heap}
    (hsize : size < 2 ^ 64) (hpos : size ≠ 0) (hptr : ptr ≠ NULL) (hpass : w.passable ptr)
    (hend : w.EndReliable (.realloc ptr size ok stack))
    (hrun : w.heap.mmRealloc ptr size ok stack = .ok (NULL, h')) : h' = w.heap := by
  obtain ⟨xs, b, ys, rfl, hb, rfl⟩ := ha.holds.split (hpass.resolve_left hptr)
  obtain ⟨xs', m, hl⟩ := exists_absorbLeft xs b
  obtain ⟨m', ys', hr⟩ := exists_absorbRight m ys
  have hrel := ha.reliable hl hr hpos hend
  rcases mmRealloc_of_malloc ha.shape hb ha.first hl hr hsize hpos stack hrel
    (mmMalloc_of_mmRealloc ha.shape hl hr hpos hrun) with ⟨hres, -⟩ | ⟨h₁, bs', c, hres, -⟩
  all_goals
    rw [hrun] at hres
    obtain ⟨hp, rfl⟩ := Prod.mk.inj (Except.ok.inj hres)
  · rfl
  · exact absurd hp.symm (by unfold NULL; omega)

theorem world_eq (hheap : w'.heap = w.heap) (hlive : w'.live = w.live) : w' = w := by
  cases w
  cases w'
  exact congrArg₂ World.mk hheap hlive

/-- **Refused calls.** In every run: an allocation that `sbrk` refuses returns `NULL`, and what
follows goes as if it had not been made, if and only if it is not the first allocation. If all
calls find `end` reliable, a `mm_realloc` to a size above 0 that returns `NULL` changes nothing. -/
theorem mm_alloc_refused_iff {mem : Mem} {lo : Nat} (hlo : 0 < lo) (hlt : lo < 2 ^ 64)
    {ts : List (Transition World Call)} (hrun : Run World.Step (World.init mem lo) ts) :
    ∀ t ∈ ts,
      (∀ size ok, t.label.normal = .malloc size ok → t.pre.Refused size ok →
        t.pre.heap.mmMalloc size ok = .ok (NULL, t.post.heap) ∧
          (t.pre.Alike t.post ↔ t.pre.heap.first = false)) ∧
      ((∀ u ∈ ts, u.pre.EndReliable u.label) → ∀ ptr size ok stack,
        t.label = .realloc ptr size ok stack → size ≠ 0 → ptr ≠ NULL →
          t.pre.heap.mmRealloc ptr size ok stack = .ok (NULL, t.post.heap) → t.post = t.pre) := by
  intro t ht
  have hstep := hrun.step_of_mem t ht
  refine ⟨fun size ok hcall hrefused => ?_, fun hend ptr size ok stack hlabel hpos hptr hnull => ?_⟩
  · obtain ⟨p, hmalloc, hlive⟩ := hstep.malloc hcall
    have heq := hrefused.eq
    rw [heq] at hmalloc
    obtain ⟨rfl, hheap⟩ := Prod.mk.inj (Except.ok.inj hmalloc)
    refine ⟨by rw [heq, hheap], ?_⟩
    by_cases hfirst : t.pre.heap.first = true
    · rw [if_pos hfirst] at hheap
      have hf : Fresh t.pre := by
        rcases begun_or_fresh hlo hlt hrun t ht with hf | hb
        · exact hf
        · rw [hb] at hfirst
          exact absurd hfirst (by decide)
      have hfailed : Failed t.post := by
        refine ⟨?_, ?_, ?_, ?_, (hlive rfl).trans hf.live⟩ <;> rw [← hheap]
        · exact hf.brk_lt
        · exact hf.empty
      refine iff_of_false (hfailed.not_alike hf) ?_
      rw [hfirst]
      decide
    · rw [if_neg hfirst] at hheap
      have hsame : t.post = t.pre := world_eq hheap.symm (hlive rfl)
      refine iff_of_true ?_ (by simpa using hfirst)
      rw [hsame]
      exact fun _ => rfl
  · have hinv := hrun.guarded (fun _ _ _ hI hC hs => Inv.step hI hC hs) (inv_init hlo hlt) hend
    have hrel := hend t ht
    rw [hlabel] at hrel hstep
    obtain ⟨hsize, hpass, p, hrun', hlive⟩ := hstep.realloc
    rw [hnull] at hrun'
    obtain rfl := (Prod.mk.inj (Except.ok.inj hrun')).1
    rw [if_neg hpos, if_pos rfl] at hlive
    obtain ⟨bs, ha⟩ := (hinv t ht).1.alive_of_passable hpass hptr
    exact world_eq (ha.realloc_null hsize hpos hptr hpass hrel hnull) hlive

/-- One allocation, and then memory has run out. -/
def exhausted : World :=
  (Run.final World.step (World.init (fun _ => 0) 4096) [.malloc 8 true]).get (by decide +kernel)

def afterMalloc : World := (exhausted.step (.malloc 100 false)).get (by decide +kernel)

def afterRealloc : World :=
  (exhausted.step (.realloc 4128 100 false fun _ => 1)).get (by decide +kernel)

theorem mem_exhausted (hstep : exhausted.Step call w') : ⟨exhausted, call, w'⟩ ∈
    Run.trace World.step (World.init (fun _ => 0) 4096) ([.malloc 8 true] ++ [call]) :=
  Run.mem_trace (Option.some_get _).symm hstep

theorem mm_alloc_refused_iff_exhausted :
    exhausted.Alike afterMalloc ∧ afterRealloc = exhausted := by
  have hmalloc : exhausted.Step (.malloc 100 false) afterMalloc := (Option.some_get _).symm
  have hrealloc : exhausted.Step (.realloc 4128 100 false fun _ => 1) afterRealloc :=
    (Option.some_get _).symm
  have hrefused := (mm_alloc_refused_iff (by decide) (by decide) (Run.of_trace World.step _ _) _
    (mem_exhausted hmalloc)).1 100 false rfl (by decide +kernel)
  have hmoved := (mm_alloc_refused_iff (by decide) (by decide) (Run.of_trace World.step _ _) _
    (mem_exhausted hrealloc)).2
  obtain ⟨-, -, p, hresult, hlive⟩ := hrealloc.realloc
  have hp : p = NULL := by
    by_contra hp
    have hlist : afterRealloc.live = [(4128, 8)] := by decide +kernel
    rw [hlist, if_neg (by decide), if_neg hp] at hlive
    exact absurd (Prod.mk.inj (List.cons.inj hlive).1).2 (by decide)
  subst hp
  exact ⟨hrefused.2.mpr (by decide +kernel),
    hmoved (by decide +kernel) 4128 100 false _ rfl (by decide) (by decide) hresult⟩

/-- The first allocation is refused. -/
def refusedFirst : World :=
  ((World.init (fun _ => 0) 4096).step (.malloc 8 false)).get (by decide +kernel)

/-- The next one does not return. -/
theorem first_malloc_not_alike : ∃ ts, Run World.Step (World.init (fun _ => 0) 4096) ts ∧
    ∃ t ∈ ts, ∃ size ok, t.label.normal = .malloc size ok ∧ t.pre.Refused size ok ∧
      ¬ t.pre.Alike t.post := by
  have hmem := @Run.mem_trace World Call World.step (World.init (fun _ => 0) 4096) _ refusedFirst []
    (.malloc 8 false) rfl (Option.some_get _).symm
  refine ⟨_, Run.of_trace World.step _ _, _, hmem, 8, false, rfl, by decide +kernel,
    fun halike => ?_⟩
  have hsame := halike [.malloc 8 true]
  exact absurd hsame (by decide +kernel)

end OsTools.MmAlloc

import Mathlib.Data.Finset.Card
import Mathlib.Order.Interval.Finset.Nat
import OsTools.Vm.Break
/-!
# OsTools.Vm.Frames

Which frames does the heap hold? In the runs described by `Even`, one for each
page that meets the heap, and none behind it (`sbrk_balanced`).

A growth that starts at or reaches a page boundary breaks the balance: `alloc`
maps a page for a break at a page boundary, `dealloc` unmaps it.

## Proof shape

`Owns` says that the pages with a frame are exactly those that meet the heap. It is kept by
even calls (`Owns.grown`, `Owns.shrunk`), because then the pages that `alloc` adds and those
that `dealloc` takes away are the difference of the heaps. Balance is then counting: the
frames are different (`Palloc.Sound`), so that there are as many as pages.
-/

namespace OsTools.Vm.Process

variable {p₀ t t' : Process} {c : SbrkCall} {q : Nat}

/-! ### The frames of the heap -/

/-- The pages that meet the heap. -/
def heapPages (t : Process) : Finset Nat := (Finset.Ico t.startOfHeap t.segmentBreak).image pgNo

/-- The frames handed out since the process was loaded and not freed. -/
def heapFrames (p₀ t : Process) : List Nat := t.mm.used.filter (· ∉ p₀.mm.used)

/-- No page behind the heap is mapped by it, and it holds as many frames as there
are pages that meet it; an empty heap holds none. -/
structure Balanced (p₀ t : Process) : Prop where
  above : ∀ q e, t.mm.page q = some e → pgRoundUp t.segmentBreak ≤ pageAddr q →
    e.frame ∈ p₀.mm.used
  count : (heapFrames p₀ t).length = t.heapPages.card
  empty : t.segmentBreak = t.startOfHeap → heapFrames p₀ t = []

/-- A process whose heap has a page, with a frame of its own, for each page that
meets it. -/
structure Owns (p₀ t : Process) : Prop where
  extends_ : Extends p₀ t
  noLeak : t.mm.NoLeak
  full : ∀ q, t.InHeap q → (t.mm.page q ≠ none ↔ pageAddr q < t.segmentBreak)
  own : ∀ q e, t.InHeap q → t.mm.page q = some e → e.frame ∉ p₀.mm.used

theorem mem_heapPages (h : t.Ready) :
    q ∈ t.heapPages ↔ t.InHeap q ∧ pageAddr q < t.segmentBreak := by
  have hofs := h.aligned
  unfold heapPages
  rw [Finset.mem_image]
  constructor
  · rintro ⟨a, ha, rfl⟩
    obtain ⟨hstart, hbrk⟩ := Finset.mem_Ico.mp ha
    refine ⟨⟨by omega, pgNo_le hstart, pgNo_le (Nat.le_of_lt hbrk)⟩, ?_⟩
    unfold pageAddr pgNo PGSIZE
    omega
  · intro hq
    obtain ⟨⟨-, hstart, -⟩, hbrk⟩ := hq
    refine ⟨pageAddr q, Finset.mem_Ico.mpr ⟨?_, hbrk⟩, pgNo_pageAddr⟩
    unfold pageAddr pgNo pgOfs PGSIZE at *
    omega

/-- The frame of a page. -/
def frameAt (t : Process) (q : Nat) : Nat := ((t.mm.page q).map Pte.frame).getD 0

/-- The frames of the heap are those of the pages that meet it. -/
theorem Owns.frames_eq (hp₀ : p₀.Image) (h : Owns p₀ t) :
    (heapFrames p₀ t).toFinset = t.heapPages.image t.frameAt := by
  ext f
  rw [List.mem_toFinset, Finset.mem_image]
  unfold heapFrames
  rw [List.mem_filter, decide_eq_true_eq]
  constructor
  · intro hf
    obtain ⟨q, e, hq, he⟩ := h.noLeak f hf.1
    have hin : t.InHeap q := by
      by_contra hout
      rw [h.extends_.image q hout] at hq
      exact hf.2 (he ▸ hp₀.sound.used q e hq)
    have hlt := (h.full q hin).mp (by rw [hq]; simp)
    refine ⟨q, (mem_heapPages h.extends_.ready).mpr ⟨hin, hlt⟩, ?_⟩
    unfold frameAt
    rw [hq]
    exact he
  · rintro ⟨q, hq, rfl⟩
    obtain ⟨hin, hlt⟩ := (mem_heapPages h.extends_.ready).mp hq
    obtain ⟨e, he⟩ := Option.ne_none_iff_exists'.mp ((h.full q hin).mpr hlt)
    unfold frameAt
    rw [he]
    exact ⟨h.extends_.ready.sound.used q e he, h.own q e hin he⟩

/-- The frames of the heap are those of its pages: what the process owns beside its image lies
between the start of the heap and the break. -/
theorem Owns.balanced (hp₀ : p₀.Image) (h : Owns p₀ t) : Balanced p₀ t := by
  have hready := h.extends_.ready
  have hsound := hready.sound
  have hcount : (heapFrames p₀ t).length = t.heapPages.card := by
    have hinj : Set.InjOn t.frameAt t.heapPages := by
      intro q hq r hr heq
      obtain ⟨hq, hqlt⟩ := (mem_heapPages hready).mp hq
      obtain ⟨hr, hrlt⟩ := (mem_heapPages hready).mp hr
      obtain ⟨e, he⟩ := Option.ne_none_iff_exists'.mp ((h.full q hq).mpr hqlt)
      obtain ⟨f, hf⟩ := Option.ne_none_iff_exists'.mp ((h.full r hr).mpr hrlt)
      unfold frameAt at heq
      rw [he, hf] at heq
      exact hsound.inj q r e f he hf heq
    have hnodup : (heapFrames p₀ t).Nodup := hsound.nodup.filter _
    rw [← List.toFinset_card_of_nodup hnodup, h.frames_eq hp₀, Finset.card_image_of_injOn hinj]
  refine ⟨fun q e he habove => ?_, hcount, fun hempty => ?_⟩
  · have hout : ¬ t.InHeap q := by
      intro hin
      have hlt := (h.full q hin).mp (by rw [he]; simp)
      have hbrk := hready.brk_lt
      unfold pgRoundUp pgRoundDown add32 PHYS_BASE PGSIZE at *
      omega
    rw [h.extends_.image q hout] at he
    exact hp₀.sound.used q e he
  · refine List.eq_nil_of_length_eq_zero (hcount.trans ?_)
    unfold heapPages
    rw [hempty, Finset.Ico_self, Finset.image_empty, Finset.card_empty]

/-! ### Calls that keep the balance -/

/-- A growth that succeeds starts an empty heap or starts within a page, and ends
within a page; all page tables for its pages can be created; and the break does
not wrap around. -/
def Even (t : Process) (c : SbrkCall) : Prop :=
  t.NoWrap c ∧ (0 < c.increment →
    ((t.wanted c.increment).length ≤ c.frames.length →
      (t.startOfHeap = t.segmentBreak ∨ pgOfs t.segmentBreak ≠ 0) ∧ pgOfs (t.newBreak c) ≠ 0) ∧
    ∀ q ∈ t.granted c, t.mm.HasTable c.tables (t.granted c) q)

instance (t : Process) (c : SbrkCall) : Decidable (t.Even c) :=
  inferInstanceAs (Decidable (_ ∧ (_ → (_ → _) ∧ ∀ q ∈ t.granted c, _)))

/-- The frames of the loaded process are still in use. -/
theorem Extends.used_le (hp₀ : p₀.Image) (h : Extends p₀ t) : ∀ f ∈ p₀.mm.used, f ∈ t.mm.used := by
  intro f hf
  obtain ⟨q, e, hq, rfl⟩ := hp₀.noLeak f hf
  have hout : ¬ t.InHeap q := by
    intro hin
    rw [h.apart q hin] at hq
    exact absurd hq (by simp)
  rw [← h.image q hout] at hq
  exact h.ready.sound.used q e hq

/-- The heap has grown by the pages that were asked for, all of which have been mapped. A page
of the heap is an old one or one of these, and the page of the start of the heap is taken with
the first of them. -/
theorem Owns.grown {mm : Mm} (hp₀ : p₀.Image) (h : Owns p₀ t) (hc : t.Admits c)
    (heven : t.Even c) (hbeyond : Beyond p₀ t c) (hinc : 0 < c.increment)
    (hlen : (t.wanted c.increment).length ≤ c.frames.length)
    (hmap : Mm.Mapped c.tables (t.wanted c.increment) (t.supply c).mm mm) :
    Owns p₀ { t with
      mm, previousBreak := t.segmentBreak, segmentBreak := t.newBreak c, eax := t.segmentBreak } := by
  have hext := h.extends_.grown heven.1 hbeyond hinc hlen hmap
  have hexact := grown_eq heven.1 hinc hlen
  obtain ⟨hends, htab⟩ := heven.2 hinc
  obtain ⟨hfrom, hto⟩ := hends hlen
  rw [granted_eq hlen] at htab
  -- a page of the new heap was asked for, or was in the old heap
  have hcases : ∀ q, t.startOfHeap < t.newBreak c ∧ pgNo t.startOfHeap ≤ q ∧
      q ≤ pgNo (t.newBreak c) → q ∉ t.wanted c.increment → t.InHeap q := by
    intro q hq hnew
    have hempty : t.startOfHeap = t.segmentBreak → pgNo t.startOfHeap = pgNo t.segmentBreak :=
      congrArg pgNo
    have hle := h.extends_.start_le
    rw [mem_wanted] at hnew
    unfold InHeap
    unfold newBreak at *
    omega
  refine ⟨hext, hmap.noLeak h.noLeak htab, fun q hq => ?_, fun q e hq he => ?_⟩
  · have hlt : pageAddr q < t.newBreak c := by
      have hqle := hq.2.2
      dsimp only at hqle
      unfold pageAddr pgNo pgOfs PGSIZE at *
      omega
    by_cases hnew : q ∈ t.wanted c.increment
    · exact iff_of_true ((hmap.ok q hnew).mpr (htab q hnew)) hlt
    · have hold := hcases q hq hnew
      have hofs := hfrom.resolve_left (Nat.ne_of_lt hold.1)
      have hold_lt : pageAddr q < t.segmentBreak := by
        have hqle := hold.2.2
        unfold pageAddr pgNo pgOfs PGSIZE at *
        omega
      dsimp only
      rw [hmap.same q hnew]
      exact iff_of_true ((h.full q hold).mpr hold_lt) hlt
  · dsimp only at he
    by_cases hnew : q ∈ t.wanted c.increment
    · rcases hmap.new q hnew with hnone | ⟨f, hf, hpage⟩
      · rw [hnone] at he
        exact absurd he (by simp)
      · obtain rfl := Option.some.inj (hpage.symm.trans he)
        exact fun hin => hc.2.2 f hf (h.extends_.used_le hp₀ f hin)
    · rw [hmap.same q hnew] at he
      exact h.own q e (hcases q hq hnew) he

/-- The heap has shrunk by whole pages. Each of them was mapped and its frame is free again;
the page of the break stays, unless the heap is empty. -/
theorem Owns.shrunk {mm : Mm} (h : Owns p₀ t) (hunder : t.NoUnderflow c)
    (hinc : c.increment < 0) (hge : t.startOfHeap ≤ t.newBreak c)
    (hun : Mm.Unmapped (t.unmapped (t.newBreak c)) (t.supply c).mm mm) :
    Owns p₀ { t with
      mm, previousBreak := t.segmentBreak, segmentBreak := t.newBreak c, eax := t.segmentBreak } := by
  have hext := h.extends_.shrunk hunder hinc hge hun
  have hexact := shrunk_eq h.extends_.ready hunder hinc hge
  have hle : t.newBreak c ≤ t.segmentBreak := by omega
  have hpg := pgNo_le hle
  have hold : ∀ q, t.startOfHeap < t.newBreak c ∧ pgNo t.startOfHeap ≤ q ∧
      q ≤ pgNo (t.newBreak c) → t.InHeap q := by
    intro q hq
    unfold InHeap
    omega
  refine ⟨hext, hun.noLeak h.noLeak, fun q hq => ?_, fun q e hq he => ?_⟩
  · have hqle := hq.2.2
    dsimp only at hqle ⊢
    by_cases hgone : q ∈ t.unmapped (t.newBreak c)
    · rw [hun.gone q hgone]
      refine iff_of_false (fun h => h rfl) ?_
      rcases (mem_unmapped hle).mp hgone with ⟨hgt, -⟩ | ⟨hofs, rfl⟩
      · omega
      · rw [pageAddr_pgNo hofs]
        exact Nat.lt_irrefl _
    · rw [hun.same q hgone]
      rw [mem_unmapped hle] at hgone
      have hlt : pageAddr q < t.newBreak c := by
        unfold pageAddr pgNo pgOfs PGSIZE at *
        omega
      exact iff_of_true ((h.full q (hold q hq)).mpr (Nat.lt_of_lt_of_le hlt hle)) hlt
  · dsimp only at he
    by_cases hgone : q ∈ t.unmapped (t.newBreak c)
    · rw [hun.gone q hgone] at he
      exact absurd he (by simp)
    · rw [hun.same q hgone] at he
      exact h.own q e (hold q hq) he

/-- One call. -/
theorem Owns.step (hp₀ : p₀.Image) (h : Owns p₀ t) (heven : t.Even c) (hstep : t.Step c t') :
    Owns p₀ t' := by
  obtain ⟨hc, hclear, he⟩ := step_effect h.extends_.ready hstep
  have hbeyond := h.extends_.clear_iff.mp hclear
  have hext := h.extends_.step heven.1 hbeyond he
  cases he with
  | query hinc => exact ⟨hext, h.noLeak, h.full, h.own⟩
  | refused hwhy hm hpage hleak _ =>
      refine ⟨hext, hleak h.noLeak fun hpos => (heven.2 hpos).2, fun q hq => ?_,
        fun q e hq he => ?_⟩
      · dsimp only
        rw [hpage]
        exact h.full q hq
      · dsimp only at he
        rw [hpage] at he
        exact h.own q e hq he
  | grown hinc hlen hmap => exact h.grown hp₀ hc heven hbeyond hinc hlen hmap
  | shrunk hinc hge hun => exact h.shrunk heven.1.1 hinc hge hun

theorem Image.owns (h : t.Image) : Owns t t where
  extends_ := h.extends
  noLeak := h.noLeak
  full := fun q hq => absurd hq.1 (by rw [h.empty]; exact Nat.lt_irrefl _)
  own := fun q e hq => absurd hq.1 (by rw [h.empty]; exact Nat.lt_irrefl _)

/-- **Frames.** In a run of even calls the heap is balanced after every call. The invariant is
`Owns`: the frames beside those of the image are those of the heap's pages, each page once. -/
theorem sbrk_balanced {pagedir : Bool} {pool : List Nat} {tables : Nat → Bool}
    {file : Option File} {l : Loaded} {ts : List (Transition Process SbrkCall)}
    (hpool : pool.Nodup) (hload : load pagedir pool tables file = .ok (some l))
    (hrun : Run Step l.process ts) (heven : ∀ τ ∈ ts, τ.pre.Even τ.label) :
    ∀ τ ∈ ts, Balanced l.process τ.post := by
  have himage := load_image hpool hload
  intro τ hτ
  have hinv := hrun.guarded (I := Owns l.process)
    (fun _ _ _ h heven hstep => h.step himage heven hstep) himage.owns heven τ hτ
  exact hinv.2.balanced himage

/-- Growth within and across pages, a shrink to a page boundary, and one back to
the start of the heap. -/
theorem sbrk_balanced_sample :
    loadProgram 0x08048000 = .ok (some sample) ∧
      ∀ τ ∈ Run.trace step sample.process
        [call 0x800 [10], call 0x1000 [11], call (-0x800) [], call (-0x1000) [], call 1 [12]],
        Balanced sample.process τ.post :=
  ⟨load_sample,
    sbrk_balanced (by decide) load_sample (Run.of_trace step _ _) (by decide +kernel)⟩

/-- `sbrk (0x1000)` on the empty heap maps the page behind it. -/
theorem page_behind_not_balanced : ∃ ts, Run Step sample.process ts ∧
    ∃ τ ∈ ts, ¬ Balanced sample.process τ.post := by
  refine ⟨_, Run.of_trace step _ [call 0x1000 [10, 11]], ?_⟩
  have hpage : ∃ τ ∈ Run.trace step sample.process [call 0x1000 [10, 11]],
      τ.post.mm.page (pgNo 0x0804a000) = some ⟨11, true⟩ ∧
        pgRoundUp τ.post.segmentBreak ≤ pageAddr (pgNo 0x0804a000) ∧
        11 ∉ sample.process.mm.used := by
    decide +kernel
  obtain ⟨τ, hτ, hpage, habove, hown⟩ := hpage
  exact ⟨τ, hτ, fun hbal => hown (hbal.above _ _ hpage habove)⟩

end OsTools.Vm.Process

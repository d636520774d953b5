import OsTools.Vm.Sbrk
/-!
# OsTools.Vm.Coverage

Is every byte of the heap mapped? `sbrk_covered_iff` says for which runs of
`sbrk` calls it is: those in which no growth starts at a page boundary whose
page is not mapped, and no page table is missing.

A shrink to a page boundary unmaps the page that starts there, and a later growth
maps only the pages behind it.

## Proof shape

Coverage is a property of the new heap after one call, given it held before. The pages of
the new heap are the granted ones, those of the old heap, and where the old heap ended at a
page boundary the page that starts there (`old_page`). The last kind is what a growth leaves
out, and `NoGap` asks for it. One step is an equivalence (`Effect.covered_iff`), and so is
the run, by induction.
-/

namespace OsTools.Vm.Process

variable {t t' : Process} {c : SbrkCall} {q : Nat}

/-! ### The pages of a call -/

theorem mem_wanted {increment : Int} : q ∈ t.wanted increment ↔
    (t.startOfHeap = t.segmentBreak ∧ q = pgNo t.startOfHeap) ∨
      (pgNo t.segmentBreak < q ∧ q ≤ pgNo (add32 t.segmentBreak increment)) := by
  unfold wanted
  rw [List.mem_append, List.mem_range'_1]
  split
  · rename_i heq
    rw [List.mem_singleton]
    omega
  · rename_i hne
    simp only [List.not_mem_nil, hne, false_and, false_or]
    omega

/-- A shrink to `newBreak` unmaps the pages behind its page, and its page where it
is a page boundary. -/
theorem mem_unmapped {newBreak : Nat} (hle : newBreak ≤ t.segmentBreak) :
    q ∈ t.unmapped newBreak ↔
      (pgNo newBreak < q ∧ q ≤ pgNo t.segmentBreak) ∨ (pgOfs newBreak = 0 ∧ q = pgNo newBreak) := by
  have hpg := pgNo_le hle
  unfold unmapped
  rw [List.mem_append, List.mem_range'_1]
  by_cases hofs : pgOfs newBreak = 0
  · simp only [hofs, decide_true, if_true, List.mem_singleton, true_and]
    omega
  · simp only [hofs, decide_false, Bool.false_eq_true, if_false, List.not_mem_nil, false_and,
      or_false]
    omega

/-- All pages a successful growth asks for are granted. -/
theorem granted_eq (hlen : (t.wanted c.increment).length ≤ c.frames.length) :
    t.granted c = t.wanted c.increment := List.take_of_length_le hlen

/-- A growth that succeeds stays in the user address space. -/
theorem newBreak_lt (ht : t.Ready) (hclear : t.Clear c) (hinc : 0 < c.increment)
    (hlen : (t.wanted c.increment).length ≤ c.frames.length) : t.newBreak c < PHYS_BASE := by
  have hbrk := ht.brk_lt
  rcases Nat.lt_or_ge (pgNo t.segmentBreak) (pgNo (t.newBreak c)) with hlt | hge
  · have hmem : pgNo (t.newBreak c) ∈ t.granted c := by
      rw [granted_eq hlen]
      exact mem_wanted.mpr (Or.inr ⟨hlt, Nat.le_refl _⟩)
    have huser := (hclear hinc _ hmem).1
    unfold pgNo userPages PHYS_BASE PGSIZE at *
    omega
  · unfold pgNo PHYS_BASE PGSIZE at *
    omega

/-- A shrink below address 0 is refused. -/
def NoUnderflow (t : Process) (c : SbrkCall) : Prop :=
  c.increment < 0 → 0 ≤ t.segmentBreak + c.increment ∨ t.newBreak c < t.startOfHeap

instance (t : Process) (c : SbrkCall) : Decidable (t.NoUnderflow c) :=
  inferInstanceAs (Decidable (_ → _))

theorem newBreak_eq (h₀ : 0 ≤ t.segmentBreak + c.increment)
    (h₁ : t.segmentBreak + c.increment < 2 ^ 32) :
    (t.newBreak c : Int) = t.segmentBreak + c.increment := add32_eq h₀ h₁

/-- A successful shrink is exact. -/
theorem shrunk_eq (ht : t.Ready) (hunder : t.NoUnderflow c) (hinc : c.increment < 0)
    (hge : t.startOfHeap ≤ t.newBreak c) :
    (t.newBreak c : Int) = t.segmentBreak + c.increment := by
  have hbrk := ht.brk_lt
  have hnonneg := (hunder hinc).resolve_right (by omega)
  refine newBreak_eq hnonneg ?_
  unfold PHYS_BASE at hbrk
  omega

/-- What the calls rely on is kept. -/
theorem Effect.ready (ht : t.Ready) (hclear : t.Clear c) (hunder : t.NoUnderflow c)
    (he : Effect t c t') : t'.Ready := by
  cases he with
  | query hinc => exact ⟨ht.supply.sound, ht.aligned, ht.brk_lt⟩
  | refused hwhy hm hpage hleak _ => exact ⟨hm, ht.aligned, ht.brk_lt⟩
  | grown hinc hlen hmap => exact ⟨hmap.sound, ht.aligned, newBreak_lt ht hclear hinc hlen⟩
  | shrunk hinc hge hun =>
      have hbrk := ht.brk_lt
      have hexact := shrunk_eq ht hunder hinc hge
      exact ⟨hun.sound, ht.aligned, by dsimp only; omega⟩

/-! ### Coverage -/

/-- Every byte of the heap lies in a mapped page. -/
def Covered (t : Process) : Prop :=
  ∀ a, t.startOfHeap ≤ a → a < t.segmentBreak → t.mm.page (pgNo a) ≠ none

/-- The call does not ask for a break below the start of the heap. -/
def AboveStart (t : Process) (c : SbrkCall) : Prop :=
  (t.startOfHeap : Int) ≤ t.segmentBreak + c.increment

instance (t : Process) (c : SbrkCall) : Decidable (t.AboveStart c) :=
  inferInstanceAs (Decidable (_ ≤ _))

/-- A growth that gets all its frames does not start at a page boundary whose
page is not mapped, and has a page table for every page of the new heap. -/
def NoGap (t : Process) (c : SbrkCall) : Prop :=
  0 < c.increment → (t.wanted c.increment).length ≤ c.frames.length →
    (t.startOfHeap < t.segmentBreak → t.segmentBreak < t.newBreak c → pgOfs t.segmentBreak = 0 →
      t.mm.page (pgNo t.segmentBreak) ≠ none) ∧
    ∀ q ∈ t.wanted c.increment, t.startOfHeap ≤ pageAddr q → pageAddr q < t.newBreak c →
      t.mm.HasTable c.tables (t.wanted c.increment) q

instance (t : Process) (c : SbrkCall) : Decidable (t.NoGap c) :=
  inferInstanceAs (Decidable (_ → _ → (_ → _ → _ → _) ∧ ∀ q ∈ t.wanted c.increment, _))

/-- The pages of the new heap that a growth does not map: those of the old heap
and, at a page boundary, the one where the old heap ends. -/
theorem old_page (ht : t.Ready) {a : Nat} (ha : t.startOfHeap ≤ a) (hnew : a < t.newBreak c)
    (hold : pgNo a ∉ t.wanted c.increment) :
    (∃ b, t.startOfHeap ≤ b ∧ b < t.segmentBreak ∧ pgNo b = pgNo a) ∨
      (t.startOfHeap < t.segmentBreak ∧ t.segmentBreak < t.newBreak c ∧
        pgOfs t.segmentBreak = 0 ∧ pgNo a = pgNo t.segmentBreak) := by
  have hofs := ht.aligned
  have hpg : pgNo a ≤ pgNo (add32 t.segmentBreak c.increment) := pgNo_le (Nat.le_of_lt hnew)
  obtain ⟨hfirst, hlater⟩ := not_or.mp fun h => hold (mem_wanted.mpr h)
  have hle : pgNo a ≤ pgNo t.segmentBreak := by omega
  have hne : t.startOfHeap ≠ t.segmentBreak := by
    intro heq
    refine hfirst ⟨heq, ?_⟩
    have := pgNo_le ha
    rw [← heq] at hle
    omega
  rcases Nat.lt_or_ge a t.segmentBreak with hlt | hge
  · exact Or.inl ⟨a, ha, hlt, rfl⟩
  · have hsame : pgNo a = pgNo t.segmentBreak := Nat.le_antisymm hle (pgNo_le hge)
    have hstart : t.startOfHeap < t.segmentBreak := by
      unfold pgNo pgOfs PGSIZE at *
      omega
    by_cases hbrk : pgOfs t.segmentBreak = 0
    · exact Or.inr ⟨hstart, Nat.lt_of_le_of_lt hge hnew, hbrk, hsame⟩
    · refine Or.inl ⟨t.segmentBreak - 1, by omega, by omega, ?_⟩
      unfold pgNo pgOfs PGSIZE at *
      omega

/-- A growth covers the new heap exactly where it leaves no gap. -/
theorem grown_covered_iff {mm : Mm} (ht : t.Ready) (hcov : t.Covered)
    (hmap : Mm.Mapped c.tables (t.wanted c.increment) (t.supply c).mm mm) :
    (∀ a, t.startOfHeap ≤ a → a < t.newBreak c → mm.page (pgNo a) ≠ none) ↔
      (t.startOfHeap < t.segmentBreak → t.segmentBreak < t.newBreak c → pgOfs t.segmentBreak = 0 →
        t.mm.page (pgNo t.segmentBreak) ≠ none) ∧
      ∀ q ∈ t.wanted c.increment, t.startOfHeap ≤ pageAddr q → pageAddr q < t.newBreak c →
        t.mm.HasTable c.tables (t.wanted c.increment) q := by
  constructor
  · intro hnew
    constructor
    · intro hstart hbrk _
      have hnot : pgNo t.segmentBreak ∉ t.wanted c.increment := by
        rw [mem_wanted]
        omega
      have hpage := hnew _ (Nat.le_of_lt hstart) hbrk
      rwa [hmap.same _ hnot] at hpage
    · intro q hq hstart hbrk
      have hpage := hnew _ hstart hbrk
      rw [pgNo_pageAddr] at hpage
      exact (hmap.ok q hq).mp hpage
  · intro ⟨hgap, htab⟩ a ha hlt
    by_cases hq : pgNo a ∈ t.wanted c.increment
    · refine (hmap.ok _ hq).mpr (htab _ hq ?_ ?_)
      · have hofs := ht.aligned
        unfold pageAddr pgNo pgOfs PGSIZE at *
        omega
      · unfold pageAddr pgNo PGSIZE at *
        omega
    · rw [hmap.same _ hq]
      rcases old_page ht ha hlt hq with ⟨b, hb, hbrk, hpg⟩ | ⟨hstart, hbrk, hofs, hpg⟩
      · rw [← hpg]
        exact hcov b hb hbrk
      · rw [hpg]
        exact hgap hstart hbrk hofs

/-- The return value of a successful call is not -1. -/
theorem brk_ne_minusOne (ht : t.Ready) : t.segmentBreak ≠ minusOne := by
  have hbrk := ht.brk_lt
  unfold minusOne PHYS_BASE at *
  omega

/-- One call that does not return -1 covers the heap exactly where it leaves no
gap. -/
theorem Effect.covered_iff (ht : t.Ready) (hcov : t.Covered) (habove : t.AboveStart c)
    (he : Effect t c t') : (t'.eax ≠ minusOne → t'.Covered) ↔ t.NoGap c := by
  cases he with
  | query hinc => exact iff_of_true (fun _ => hcov) fun hpos => absurd hpos (by omega)
  | refused hwhy hm hpage hleak _ =>
      refine iff_of_true (fun h => absurd rfl h) fun hpos hlen => ?_
      rcases hwhy with ⟨-, hshort⟩ | ⟨hneg, -⟩
      · exact absurd hlen (Nat.not_le_of_lt hshort)
      · exact absurd hpos (by omega)
  | grown hinc hlen hmap =>
      rw [imp_iff_right (brk_ne_minusOne ht)]
      exact (grown_covered_iff ht hcov hmap).trans ⟨fun h _ _ => h, fun h => h hinc hlen⟩
  | shrunk hinc hge hun =>
      refine iff_of_true (fun _ => ?_) fun hpos => absurd hpos (by omega)
      have hunder : t.NoUnderflow c := fun _ => Or.inl (Int.le_trans (Int.natCast_nonneg _) habove)
      have hexact := shrunk_eq ht hunder hinc hge
      intro a ha hlt
      dsimp only at ha hlt ⊢
      have hkept : pgNo a ∉ t.unmapped (t.newBreak c) := by
        rw [mem_unmapped (by omega)]
        unfold pgNo pgOfs PGSIZE
        omega
      rw [hun.same _ hkept]
      exact hcov a ha (by omega)

/-- A call that leaves no gap keeps the heap covered. -/
theorem Effect.covered (ht : t.Ready) (hcov : t.Covered) (habove : t.AboveStart c)
    (hgap : t.NoGap c) (he : Effect t c t') : t'.Covered := by
  have hiff := he.covered_iff ht hcov habove
  cases he with
  | refused hwhy hm hpage hleak _ =>
      intro a ha hlt
      dsimp only at ha hlt ⊢
      rw [hpage]
      exact hcov a ha hlt
  | query hinc => exact hiff.mpr hgap (brk_ne_minusOne ht)
  | grown hinc hlen hmap => exact hiff.mpr hgap (brk_ne_minusOne ht)
  | shrunk hinc hge hun => exact hiff.mpr hgap (brk_ne_minusOne ht)

theorem Image.ready (h : t.Image) : t.Ready := ⟨h.sound, h.aligned, h.empty ▸ h.start_lt⟩

theorem Image.covered (h : t.Image) : t.Covered := by
  intro a ha hlt
  rw [h.empty] at hlt
  exact absurd hlt (Nat.not_lt_of_le ha)

/-- **Coverage.** In a run of calls none of which asks for a break below the start
of the heap, every call that does not return -1 leaves the heap covered, if and
only if no call leaves a gap. -/
theorem sbrk_covered_iff {pagedir : Bool} {pool : List Nat} {tables : Nat → Bool}
    {file : Option File} {l : Loaded} {ts : List (Transition Process SbrkCall)}
    (hpool : pool.Nodup) (hload : load pagedir pool tables file = .ok (some l))
    (hrun : Run Step l.process ts) (habove : ∀ τ ∈ ts, τ.pre.AboveStart τ.label) :
    (∀ τ ∈ ts, τ.post.eax ≠ minusOne → τ.post.Covered) ↔ ∀ τ ∈ ts, τ.pre.NoGap τ.label := by
  have himage := load_image hpool hload
  have hrun' := hrun.restrict (D := fun τ => τ.pre.AboveStart τ.label) habove
  refine hrun'.forall_iff (I := fun t => t.Ready ∧ t.Covered) ?_ ?_ ⟨himage.ready, himage.covered⟩
  · intro t c t' ⟨ht, hcov⟩ ⟨hstep, habove⟩
    exact (step_effect ht hstep).2.2.covered_iff ht hcov habove
  · intro t c t' ⟨ht, hcov⟩ hgap ⟨hstep, habove⟩
    obtain ⟨-, hclear, he⟩ := step_effect ht hstep
    have hunder : t.NoUnderflow c := fun _ => Or.inl (Int.le_trans (Int.natCast_nonneg _) habove)
    exact ⟨he.ready ht hclear hunder, he.covered ht hcov habove hgap⟩

/-- A call with the frames `frames` that finds all page tables it needs. -/
def call (increment : Int) (frames : List Nat) : SbrkCall := ⟨increment, frames, fun _ => true⟩

/-- Growing and shrinking within pages. -/
theorem sbrk_covered_iff_pages :
    loadProgram 0x08048000 = .ok (some sample) ∧
      ∀ τ ∈ Run.trace step sample.process
        [call 0x1800 [10, 11], call (-0x1000) [], call 0x2000 [12, 13], call (-0x2800) []],
        τ.post.eax ≠ minusOne → τ.post.Covered :=
  ⟨load_sample,
    (sbrk_covered_iff (by decide) load_sample (Run.of_trace step _ _) (by decide +kernel)).mpr
      (by decide +kernel)⟩

/-- `sbrk (0x2000); sbrk (-0x1000); sbrk (1)`: the byte at the page boundary is not
mapped. -/
theorem boundary_not_covered : ∃ ts, Run Step sample.process ts ∧
    (∀ τ ∈ ts, τ.pre.AboveStart τ.label) ∧
    ∃ τ ∈ ts, τ.post.eax ≠ minusOne ∧ ¬ τ.post.Covered := by
  refine ⟨_, Run.of_trace step _ [call 0x2000 [10, 11, 12], call (-0x1000) [], call 1 []], ?_, ?_⟩
  · decide +kernel
  · have hgap : ∃ τ ∈ Run.trace step sample.process
          [call 0x2000 [10, 11, 12], call (-0x1000) [], call 1 []],
        τ.post.eax ≠ minusOne ∧ τ.post.startOfHeap ≤ 0x0804a000 ∧
          0x0804a000 < τ.post.segmentBreak ∧ τ.post.mm.page (pgNo 0x0804a000) = none := by
      decide +kernel
    obtain ⟨τ, hτ, hret, hstart, hbrk, hnone⟩ := hgap
    exact ⟨τ, hτ, hret, fun hcov => hcov _ hstart hbrk hnone⟩

end OsTools.Vm.Process

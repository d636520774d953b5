import OsTools.Vm.Coverage
/-!
# OsTools.Vm.Rollback

Is a growth all or nothing? `alloc` unmaps what it has mapped when the pool has no frame left,
but it does not look at the result of `pagedir_set_page`. The frame of a page without a page
table is lost in a growth that fails, and the page is missing in one that succeeds.

`sbrk_atomic_iff` says of every growth in every run when it is all or nothing. The states that
are reached may have a break outside of the user address space; `Steady` holds in all of them.

## Proof shape

`Palloc.Mapped.undo_frames` has the reason: undoing a list of mappings restores everything
if each page got a page table, and loses a frame otherwise. `atomic_iff` applies it to the
pages that a growth was granted, in both directions. For a growth that succeeds, the page
without a table is one that should be mapped and is not.
-/

namespace OsTools.Vm

open Mm

variable {m m' : Mm} {p q n a a' : Nat}

/-! ### Every state is steady -/

theorem unmapPage_sound (hm : m.Sound) (ha : pgOfs a = 0) (h : m.unmapPage a = .ok m') :
    m'.Sound := by
  have huser : pgNo a < userPages := by
    unfold Mm.unmapPage PageDir.getPage at h
    split at h
    · exact absurd h (by simp [bind, Except.bind])
    · rename_i hva
      have hlt : a < PHYS_BASE := by simpa [isUserVaddr] using hva
      unfold pgNo userPages PHYS_BASE PGSIZE at *
      omega
  obtain ⟨m₁, hrun, hsound, -⟩ := hm.unmapPage_page huser
  rw [pageAddr_pgNo ha] at hrun
  rwa [← Except.ok.inj (hrun.symm.trans h)]

theorem pgOfs_sub32 (ha : pgOfs a = 0) : pgOfs (sub32 a PGSIZE) = 0 := by
  unfold pgOfs sub32 PGSIZE at *
  omega

theorem unmapPages_sound (hm : m.Sound) (ha : pgOfs a = 0)
    (h : unmapPages n m a = .ok (m', a')) : m'.Sound ∧ pgOfs a' = 0 := by
  induction n generalizing m a with
  | zero =>
      obtain ⟨rfl, rfl⟩ := Prod.mk.inj (Except.ok.inj h)
      exact ⟨hm, ha⟩
  | succ n ih =>
      unfold unmapPages at h
      obtain ⟨m₁, hrun, h⟩ := bind_eq_ok h
      exact ih (unmapPage_sound hm ha hrun) (pgOfs_sub32 ha) h

namespace Process

variable {t t' : Process} {c : SbrkCall} {ret : Nat} {increment : Int} {tables : Nat → Bool}

theorem Steady.supply (ht : t.Steady) : (t.supply c).Steady :=
  ⟨⟨ht.sound.user, ht.sound.nodup, ht.sound.used, ht.sound.inj⟩, ht.aligned, ht.brk_lt⟩

theorem dealloc_steady (ht : t.Steady) (h : t.dealloc increment = .ok (ret, t')) : t'.Steady := by
  unfold dealloc at h
  dsimp only at h
  split at h
  · obtain ⟨-, rfl⟩ := Prod.mk.inj (Except.ok.inj h)
    exact ht
  · obtain ⟨⟨mm, ptalloc⟩, hloop, h⟩ := bind_eq_ok h
    obtain ⟨mm', hlast, h⟩ := bind_eq_ok h
    obtain ⟨-, rfl⟩ := Prod.mk.inj (Except.ok.inj h)
    rw [pgRoundDown_eq] at hloop
    obtain ⟨hm, hofs⟩ := unmapPages_sound ht.sound pgOfs_pageAddr hloop
    refine ⟨?_, ht.aligned, add32_lt _ _⟩
    unfold Mm.unmapPageIf at hlast
    split at hlast
    · exact unmapPage_sound hm hofs hlast
    · rw [← Except.ok.inj hlast]
      exact hm

/-- A growth that returns was granted free user pages, and did what `Grown` says. -/
theorem step_grown (ht : t.Steady) (hinc : 0 < c.increment) (hstep : t.Step c t') :
    ∃ ret t₁, Grown c.tables (t.supply c) c.increment ret t₁ ∧ t' = { t₁ with eax := ret } ∧
      t.Admits c := by
  unfold Step step at hstep
  split at hstep
  · rename_i hc
    unfold sbrk syscallSbrk at hstep
    rw [if_neg (by omega), if_pos hinc] at hstep
    by_cases hclear : t.Clear c
    · obtain ⟨ret, t₁, hrun, hgrown⟩ := @alloc_spec c.tables _ _ ht.supply hc.fresh (hclear hinc)
      rw [hrun, ok_bind] at hstep
      exact ⟨ret, t₁, hgrown, (Option.some.inj hstep).symm, hc⟩
    · have hbad : ∃ q ∈ t.granted c, ¬ (q < userPages ∧ t.mm.page q = none) := by
        by_contra hno
        refine hclear fun _ q hq => ?_
        by_contra hq'
        exact hno ⟨q, hq, hq'⟩
      obtain ⟨e, he⟩ := @alloc_panics c.tables _ _ ht.supply hc.fresh hbad
      rw [he] at hstep
      exact absurd hstep (by simp [bind, Except.bind, Except.toOption])
  · exact absurd hstep (by simp)

/-- A call of `sbrk` that returns leaves the break and the heap in the relation that the next
call relies on. -/
theorem Step.steady (ht : t.Steady) (hstep : t.Step c t') : t'.Steady := by
  by_cases hinc : 0 < c.increment
  · obtain ⟨ret, t₁, hgrown, rfl, -⟩ := step_grown ht hinc hstep
    cases hgrown with
    | refused _ hm _ _ _ => exact ⟨hm, ht.aligned, ht.brk_lt⟩
    | grown _ hmap => exact ⟨hmap.sound, ht.aligned, add32_lt _ _⟩
  · unfold Step step at hstep
    split at hstep
    · cases hrun : t.sbrk c with
      | error e =>
          rw [hrun] at hstep
          exact absurd hstep (by simp [Except.toOption])
      | ok t₁ =>
          rw [hrun] at hstep
          obtain rfl := Option.some.inj hstep
          unfold sbrk at hrun
          obtain ⟨⟨ret, t₂⟩, hcall, hrun⟩ := bind_eq_ok hrun
          obtain rfl := Except.ok.inj hrun
          unfold syscallSbrk at hcall
          split at hcall
          · obtain ⟨-, rfl⟩ := Prod.mk.inj (Except.ok.inj hcall)
            exact ⟨ht.supply.sound, ht.aligned, ht.brk_lt⟩
          · have hsteady := dealloc_steady ht.supply hcall
            exact ⟨hsteady.sound, hsteady.aligned, hsteady.brk_lt⟩
    · exact absurd hstep (by simp)

/-! ### All or nothing -/

/-- A growth that returns -1 leaves everything as it was, and one that does not has mapped every
page that it added. -/
def Atomic (t : Process) (increment : Int) (t' : Process) : Prop :=
  (t'.eax = minusOne → t'.mm.page = t.mm.page ∧ t'.segmentBreak = t.segmentBreak ∧
    t'.previousBreak = t.previousBreak ∧ ∀ f, f ∈ t'.mm.used ↔ f ∈ t.mm.used) ∧
  (t'.eax ≠ minusOne → ∀ q ∈ t.wanted increment, t'.mm.page q ≠ none)

/-- There is a page table, from before the call or created in it, for every page that a frame is
found for; and the break is not -1 itself. -/
def Backed (t : Process) (c : SbrkCall) : Prop :=
  (∀ q ∈ t.granted c, t.mm.HasTable c.tables (t.granted c) q) ∧ t.segmentBreak ≠ minusOne

instance (t : Process) (c : SbrkCall) : Decidable (t.Backed c) :=
  inferInstanceAs (Decidable (_ ∧ _))

/-- With the break at -1 a growth succeeds and returns -1. -/
theorem not_atomic_of_minusOne (ht : t.Steady) (hbrk : t.segmentBreak = minusOne)
    (hinc : 0 < c.increment) (hstep : t.Step c t') : ¬ Atomic t c.increment t' := by
  obtain ⟨ret, t₁, hgrown, rfl, hc⟩ := step_grown ht hinc hstep
  have hne : t.startOfHeap ≠ t.segmentBreak := by
    intro heq
    have hofs := ht.aligned
    rw [heq, hbrk] at hofs
    exact absurd hofs (by decide)
  have hwant : (t.supply c).wanted c.increment = [] := by
    have hlt : add32 t.segmentBreak c.increment < 2 ^ 32 := add32_lt _ _
    have hnone : pgNo (add32 t.segmentBreak c.increment) - pgNo t.segmentBreak = 0 := by
      rw [hbrk] at hlt ⊢
      unfold pgNo minusOne PGSIZE at *
      omega
    have hall := @wanted_of_ne (t.supply c) c.increment hne
    dsimp only [supply] at hall
    rw [hnone] at hall
    exact hall
  cases hgrown with
  | refused hlen _ _ _ _ =>
      rw [hwant] at hlen
      exact absurd hlen (by simp)
  | grown _ _ =>
      rintro ⟨hrefused, -⟩
      have hsame := (hrefused hbrk).2.1
      have hrange := hc.1
      dsimp only [supply] at hsame
      rw [hbrk] at hsame
      unfold add32 minusOne at hsame
      omega

/-- **One growth.** -/
theorem atomic_iff (ht : t.Steady) (hinc : 0 < c.increment) (hstep : t.Step c t') :
    Atomic t c.increment t' ↔ t.Backed c := by
  by_cases hbrk : t.segmentBreak = minusOne
  · exact iff_of_false (not_atomic_of_minusOne ht hbrk hinc hstep) fun h => h.2 hbrk
  obtain ⟨ret, t₁, hgrown, rfl, -⟩ := step_grown ht hinc hstep
  unfold Atomic Backed
  rw [and_iff_left hbrk]
  cases hgrown with
  | refused hlen hm hpage hleak hused =>
      rw [and_iff_left fun h => absurd rfl h]
      exact ⟨fun h => hused.mp (h rfl).2.2.2,
        fun h _ => ⟨hpage, rfl, rfl, hused.mpr h⟩⟩
  | grown hlen hmap =>
      dsimp only [supply]
      have hgranted : t.granted c = t.wanted c.increment := granted_eq hlen
      rw [hgranted]
      constructor
      · rintro ⟨-, hmapped⟩ q hq
        exact (hmap.ok q hq).mp (hmapped hbrk q hq)
      · intro hbacked
        refine ⟨fun h => absurd h hbrk, ?_⟩
        intro _ q hq
        exact (hmap.ok q hq).mpr (hbacked q hq)

/-- **Rollback.** In every run of calls of a loaded process, each growth is all or nothing if
and only if it is backed. A page for which there is no page table is what makes the
difference: it is not mapped, which the loop does not notice. -/
theorem sbrk_atomic_iff {pagedir : Bool} {pool : List Nat} {file : Option File} {l : Loaded}
    {ts : List (Transition Process SbrkCall)} (hpool : pool.Nodup)
    (hload : load pagedir pool tables file = .ok (some l)) (hrun : Run Step l.process ts) :
    ∀ τ ∈ ts, 0 < τ.label.increment →
      (Atomic τ.pre τ.label.increment τ.post ↔ τ.pre.Backed τ.label) := by
  have hinv := hrun.invariant (fun _ _ _ ht hs => Step.steady ht hs)
    (load_image hpool hload).ready.steady
  intro τ hτ hinc
  exact atomic_iff (hinv τ hτ).1 hinc (hrun.step_of_mem τ hτ)

/-- A growth for which there are frames, and one that is rolled back. -/
def twoGrowths : List SbrkCall := [call 0x1800 [10, 11], call 0x3000 [12, 13]]

theorem sbrk_atomic_iff_twoGrowths :
    (Run.trace step sample.process twoGrowths).length = 2 ∧
    ∀ τ ∈ Run.trace step sample.process twoGrowths,
      Atomic τ.pre τ.label.increment τ.post := by
  refine ⟨by decide +kernel, ?_⟩
  intro τ hτ
  have hall : ∀ τ ∈ Run.trace step sample.process twoGrowths,
      0 < τ.label.increment ∧ τ.pre.Backed τ.label := by decide +kernel
  exact (sbrk_atomic_iff (by decide) load_sample (Run.of_trace step _ _) τ hτ (hall τ hτ).1).mpr
    (hall τ hτ).2

/-- The process of a program at the end of the pages of one page table. -/
def tableSample : Loaded := (loadProgram 0x083ff000).toOption.join.get (by decide +kernel)

/-- `sbrk (1)` there when no page table can be created: the call succeeds, and the page is
missing. -/
theorem missing_table_not_atomic : loadProgram 0x083ff000 = .ok (some tableSample) ∧
    ∃ ts, Run Step tableSample.process ts ∧
      ∃ τ ∈ ts, 0 < τ.label.increment ∧ ¬ Atomic τ.pre τ.label.increment τ.post := by
  refine ⟨eq_ok_get _, _, Run.of_trace step _ [⟨1, [10], fun _ => false⟩], ?_⟩
  have hmissing : ∃ τ ∈ Run.trace step tableSample.process [⟨1, [10], fun _ => false⟩],
      0 < τ.label.increment ∧ τ.post.eax ≠ minusOne ∧ 0x8400 ∈ τ.pre.wanted τ.label.increment ∧
        τ.post.mm.page 0x8400 = none := by
    decide +kernel
  obtain ⟨τ, hτ, hinc, hret, hwant, hnone⟩ := hmissing
  exact ⟨τ, hτ, hinc, fun hatomic => hatomic.2 hret _ hwant hnone⟩

end Process

end OsTools.Vm

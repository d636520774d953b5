import OsTools.Vm.Coverage
/-!
# OsTools.Vm.Break

Runs of `sbrk` calls in which a failed assertion stops the kernel. A process
`Extends` the one that was loaded as long as no call wraps around the address
space: what `load` mapped is still mapped, and the rest are pages of the heap.

From this follow when the break moves by exactly the increment
(`sbrk_exact_iff`), and when no assertion fails (`sbrk_no_panic_iff`).

## Proof shape

A growth can only panic on a page that `load` mapped or that is no user page, provided that
the pages behind the break are not in the heap; this is what `Extends` keeps. In the other
direction a call that asks for such a page does panic. So the condition of a run without
panics is one on each call alone (`Beyond`), and the theorems are by induction over the run,
with the step lemmas `Extends.grown` and `Extends.shrunk`.

For exactness there is one more way to fail: the break may wrap around the address space
without any page being touched.
-/

namespace OsTools.Vm

namespace Process

variable {p₀ t t' : Process} {c : SbrkCall} {q : Nat}

/-! ### The loaded process and its heap -/

/-- The pages of the heap, up to and with the page of the break. -/
def InHeap (t : Process) (q : Nat) : Prop :=
  t.startOfHeap < t.segmentBreak ∧ pgNo t.startOfHeap ≤ q ∧ q ≤ pgNo t.segmentBreak

/-- `t` is the process `p₀` with a heap. -/
structure Extends (p₀ t : Process) : Prop where
  ready : t.Ready
  start : t.startOfHeap = p₀.startOfHeap
  start_le : t.startOfHeap ≤ t.segmentBreak
  image : ∀ q, ¬ t.InHeap q → t.mm.page q = p₀.mm.page q
  apart : ∀ q, t.InHeap q → p₀.mm.page q = none

/-- The break does not wrap around, or the call is refused. -/
def NoWrap (t : Process) (c : SbrkCall) : Prop :=
  t.NoUnderflow c ∧ (0 < c.increment →
    t.segmentBreak + c.increment < 2 ^ 32 ∨ c.frames.length < (t.wanted c.increment).length)

instance (t : Process) (c : SbrkCall) : Decidable (t.NoWrap c) :=
  inferInstanceAs (Decidable (_ ∧ (_ → _)))

/-- The pages that a growth gets a frame for are user pages that `load` did not
map. -/
def Beyond (p₀ t : Process) (c : SbrkCall) : Prop :=
  0 < c.increment → ∀ q ∈ t.granted c, q < userPages ∧ p₀.mm.page q = none

instance (p₀ t : Process) (c : SbrkCall) : Decidable (Beyond p₀ t c) :=
  inferInstanceAs (Decidable (_ → _))

theorem Image.extends (h : t.Image) : Extends t t where
  ready := h.ready
  start := rfl
  start_le := Nat.le_of_eq h.empty.symm
  image := fun _ _ => rfl
  apart := fun q hq => absurd hq.1 (by rw [h.empty]; exact Nat.lt_irrefl _)

/-- A page that a growth asks for is not in the heap yet. -/
theorem not_inHeap_of_granted (hq : q ∈ t.granted c) : ¬ t.InHeap q := by
  intro hin
  obtain ⟨hlt, -, hle⟩ := hin
  rcases mem_wanted.mp (List.mem_of_mem_take hq) with ⟨heq, -⟩ | ⟨hgt, -⟩ <;> omega

/-- So it is free where `load` did not map it. -/
theorem Extends.clear_iff (h : Extends p₀ t) : t.Clear c ↔ Beyond p₀ t c := by
  unfold Clear Beyond
  refine forall_congr' fun _ => forall₂_congr fun q hq => ?_
  rw [h.image q (not_inHeap_of_granted hq)]

/-- A successful growth without wrap-around is exact. -/
theorem grown_eq (hwrap : t.NoWrap c) (hinc : 0 < c.increment)
    (hlen : (t.wanted c.increment).length ≤ c.frames.length) :
    (t.newBreak c : Int) = t.segmentBreak + c.increment := by
  have hlt := (hwrap.2 hinc).resolve_right (Nat.not_lt_of_le hlen)
  exact newBreak_eq (by omega) hlt

/-- The heap has grown: the break is where it was asked to be, and everything that was mapped
before is still mapped. -/
theorem Extends.grown {mm : Mm} (h : Extends p₀ t) (hwrap : t.NoWrap c) (hbeyond : Beyond p₀ t c)
    (hinc : 0 < c.increment) (hlen : (t.wanted c.increment).length ≤ c.frames.length)
    (hmap : Mm.Mapped c.tables (t.wanted c.increment) (t.supply c).mm mm) :
    Extends p₀ { t with
      mm, previousBreak := t.segmentBreak, segmentBreak := t.newBreak c, eax := t.segmentBreak } := by
  have hexact := grown_eq hwrap hinc hlen
  have hclear := h.clear_iff.mpr hbeyond
  have hle := h.start_le
  have hpg := pgNo_le (show t.segmentBreak ≤ t.newBreak c by omega)
  have hstart := pgNo_le hle
  refine ⟨⟨hmap.sound, h.ready.aligned, newBreak_lt h.ready hclear hinc hlen⟩, h.start, ?_, ?_, ?_⟩
  · dsimp only
    omega
  · intro q hq
    have hnew : q ∉ t.wanted c.increment := by
      rw [mem_wanted]
      dsimp only [InHeap] at hq
      unfold newBreak at *
      omega
    have hold : ¬ t.InHeap q := by
      dsimp only [InHeap] at hq ⊢
      omega
    exact (hmap.same q hnew).trans (h.image q hold)
  · intro q hq
    by_cases hold : t.InHeap q
    · exact h.apart q hold
    · have hnew : q ∈ t.wanted c.increment := by
        have hempty : t.startOfHeap = t.segmentBreak → pgNo t.startOfHeap = pgNo t.segmentBreak :=
          congrArg pgNo
        rw [mem_wanted]
        dsimp only [InHeap] at hq hold
        unfold newBreak at *
        omega
      refine (hbeyond hinc q ?_).2
      rwa [granted_eq hlen]

/-- The heap has shrunk: the pages that were unmapped lie behind the new break, and those of
the image lie before the heap. -/
theorem Extends.shrunk {mm : Mm} (h : Extends p₀ t) (hunder : t.NoUnderflow c)
    (hinc : c.increment < 0) (hge : t.startOfHeap ≤ t.newBreak c)
    (hun : Mm.Unmapped (t.unmapped (t.newBreak c)) (t.supply c).mm mm) :
    Extends p₀ { t with
      mm, previousBreak := t.segmentBreak, segmentBreak := t.newBreak c, eax := t.segmentBreak } := by
  have hexact := shrunk_eq h.ready hunder hinc hge
  have hle : t.newBreak c ≤ t.segmentBreak := by omega
  have hpg := pgNo_le hle
  have hstart := pgNo_le hge
  have hbrk := h.ready.brk_lt
  refine ⟨⟨hun.sound, h.ready.aligned, by dsimp only; omega⟩, h.start, hge, ?_, ?_⟩
  · intro q hq
    by_cases hold : t.InHeap q
    · have hgone : q ∈ t.unmapped (t.newBreak c) := by
        rw [mem_unmapped hle]
        -- a heap shrunk to nothing ends at the page boundary where it starts
        rcases Nat.eq_or_lt_of_le hge with heq | hlt
        · have hofs := h.ready.aligned
          rw [heq] at hofs
          dsimp only [InHeap] at hold
          rw [heq] at hold
          omega
        · dsimp only [InHeap] at hq hold
          omega
      exact (hun.gone q hgone).trans (h.apart q hold).symm
    · have hkept : q ∉ t.unmapped (t.newBreak c) := by
        rw [mem_unmapped hle]
        dsimp only [InHeap] at hold
        omega
      exact (hun.same q hkept).trans (h.image q hold)
  · intro q hq
    refine h.apart q ?_
    dsimp only [InHeap] at hq ⊢
    omega

/-- A call that neither wraps around nor meets the image extends the process
again. -/
theorem Extends.step (h : Extends p₀ t) (hwrap : t.NoWrap c) (hbeyond : Beyond p₀ t c)
    (he : Effect t c t') : Extends p₀ t' := by
  cases he with
  | query hinc =>
      exact ⟨⟨h.ready.supply.sound, h.ready.aligned, h.ready.brk_lt⟩, h.start, h.start_le, h.image,
        h.apart⟩
  | refused hwhy hm hpage hleak _ =>
      refine ⟨⟨hm, h.ready.aligned, h.ready.brk_lt⟩, h.start, h.start_le, fun q hq => ?_, h.apart⟩
      dsimp only
      rw [hpage]
      exact h.image q hq
  | grown hinc hlen hmap => exact h.grown hwrap hbeyond hinc hlen hmap
  | shrunk hinc hge hun => exact h.shrunk hwrap.1 hinc hge hun

end Process

/-! ### Runs in which the kernel may panic -/

/-- The kernel runs the process, or has panicked. -/
abbrev Kernel := Except Panic Process

namespace Kernel

variable {p₀ p : Process} {k k' : Kernel} {c : SbrkCall}

def step (k : Kernel) (c : SbrkCall) : Option Kernel :=
  match k with
  | .ok p => if p.Admits c then some (p.sbrk c) else none
  | .error _ => none

def Step (k : Kernel) (c : SbrkCall) (k' : Kernel) : Prop := k.step c = some k'

/-- A condition on the process before a call. -/
def Meets (C : Process → SbrkCall → Prop) (k : Kernel) (c : SbrkCall) : Prop :=
  match k with
  | .ok p => C p c
  | .error _ => True

instance (C : Process → SbrkCall → Prop) [∀ p c, Decidable (C p c)] (k : Kernel) (c : SbrkCall) :
    Decidable (k.Meets C c) :=
  match k with
  | .ok p => inferInstanceAs (Decidable (C p c))
  | .error _ => inferInstanceAs (Decidable True)

/-- The kernel runs a process that extends the loaded one. -/
def Sane (p₀ : Process) (k : Kernel) : Prop := ∃ p, k = .ok p ∧ p₀.Extends p

theorem step_ok (hstep : Step (.ok p) c k') : p.Admits c ∧ p.sbrk c = k' := by
  unfold Step step at hstep
  dsimp only at hstep
  split at hstep
  · rename_i hc
    exact ⟨hc, Option.some.inj hstep⟩
  · exact absurd hstep (by simp)

theorem Sane.step (hk : k.Sane p₀) (hwrap : k.Meets Process.NoWrap c)
    (hbeyond : k.Meets p₀.Beyond c) (hstep : k.Step c k') : k'.Sane p₀ := by
  obtain ⟨p, rfl, h⟩ := hk
  obtain ⟨hc, hrun⟩ := step_ok hstep
  obtain ⟨p', hok, he⟩ := Process.sbrk_spec h.ready hc (h.clear_iff.mpr hbeyond)
  exact ⟨p', hrun.symm.trans hok, h.step hwrap hbeyond he⟩

/-! ### The break -/

/-- The call returns -1 and leaves the break alone, or returns the old break and
moves it by the increment, staying between the start of the heap and
`PHYS_BASE`. A shrink below the start of the heap returns -1. -/
def Exact (τ : Transition Kernel SbrkCall) : Prop :=
  ∃ p p', τ.pre = .ok p ∧ τ.post = .ok p' ∧
    ((p'.eax = minusOne ∧ p'.segmentBreak = p.segmentBreak) ∨
      (p'.eax = p.segmentBreak ∧ (p'.segmentBreak : Int) = p.segmentBreak + τ.label.increment ∧
        p.startOfHeap ≤ p'.segmentBreak ∧ p'.segmentBreak ≤ PHYS_BASE)) ∧
    (τ.label.increment < 0 → p.segmentBreak + τ.label.increment < p.startOfHeap →
      p'.eax = minusOne)

/-- The call neither wraps around nor asks for pages that it cannot have. -/
def Within (p₀ t : Process) (c : SbrkCall) : Prop := t.NoWrap c ∧ p₀.Beyond t c

instance (p₀ t : Process) (c : SbrkCall) : Decidable (Within p₀ t c) :=
  inferInstanceAs (Decidable (_ ∧ _))

/-- One call of `sbrk` does what it should exactly if the condition holds. The cases are what
the call finds: room, too little memory, a sum that wraps, or pages that are in use already,
at which `alloc` panics. -/
theorem exact_iff (h : p₀.Extends p) (hc : p.Admits c) :
    Exact ⟨.ok p, c, p.sbrk c⟩ ↔ Within p₀ p c := by
  have hbrk := h.ready.brk_lt
  have hle := h.start_le
  by_cases hclear : p.Clear c
  · have hbeyond := h.clear_iff.mp hclear
    obtain ⟨p', hok, he⟩ := Process.sbrk_spec h.ready hc hclear
    rw [hok]
    have hne := Process.brk_ne_minusOne h.ready
    -- the panic of `sbrk` apart, by what the call did
    cases he with
    | query hinc =>
        refine iff_of_true ⟨p, _, rfl, rfl, Or.inr ⟨rfl, ?_, hle, Nat.le_of_lt hbrk⟩, ?_⟩ ⟨?_, hbeyond⟩
        · dsimp only [Process.supply]
          omega
        · exact fun hneg => absurd hneg (by dsimp only; omega)
        · exact ⟨fun hneg => absurd hneg (by omega), fun hpos => absurd hpos (by omega)⟩
    | refused hwhy hm hpage hleak _ =>
        refine iff_of_true ⟨p, _, rfl, rfl, Or.inl ⟨rfl, rfl⟩, fun _ _ => rfl⟩ ⟨?_, hbeyond⟩
        rcases hwhy with ⟨hpos, hshort⟩ | ⟨hneg, hlow⟩
        · exact ⟨fun hneg => absurd hneg (by omega), fun _ => Or.inr hshort⟩
        · exact ⟨fun _ => Or.inr hlow, fun hpos => absurd hpos (by omega)⟩
    | grown hinc hlen hmap =>
        have huser := Process.newBreak_lt h.ready hclear hinc hlen
        constructor
        · rintro ⟨_, _, hpre, hpost, hret | ⟨-, hexact, -⟩, -⟩
          all_goals obtain rfl := Except.ok.inj hpre
          all_goals obtain rfl := Except.ok.inj hpost
          · exact absurd hret.1 hne
          · refine ⟨⟨fun hneg => absurd hneg (by omega), fun _ => Or.inl ?_⟩, hbeyond⟩
            dsimp only at hexact
            unfold PHYS_BASE at huser
            omega
        · intro hwithin
          have hwrap := hwithin.1
          have hexact := Process.grown_eq hwrap hinc hlen
          refine ⟨p, _, rfl, rfl, Or.inr ⟨rfl, hexact, ?_, Nat.le_of_lt huser⟩, fun hneg => ?_⟩
          · dsimp only
            omega
          · exact absurd hneg (by dsimp only; omega)
    | shrunk hinc hge hun =>
        constructor
        · rintro ⟨_, _, hpre, hpost, hret | ⟨-, hexact, -⟩, -⟩
          all_goals obtain rfl := Except.ok.inj hpre
          all_goals obtain rfl := Except.ok.inj hpost
          · exact absurd hret.1 hne
          · refine ⟨⟨fun _ => Or.inl ?_, fun hpos => absurd hpos (by omega)⟩, hbeyond⟩
            dsimp only at hexact
            omega
        · intro hwithin
          have hwrap := hwithin.1
          have hexact := Process.shrunk_eq h.ready hwrap.1 hinc hge
          refine ⟨p, _, rfl, rfl, Or.inr ⟨rfl, hexact, hge, ?_⟩, fun _ hlow => ?_⟩
          · dsimp only
            omega
          · exact absurd hlow (by dsimp only; omega)
  · refine iff_of_false ?_ fun hw => hclear (h.clear_iff.mpr hw.2)
    obtain ⟨e, he⟩ := (Process.sbrk_panics_iff h.ready hc).mpr hclear
    rintro ⟨_, _, -, hok, -⟩
    rw [he] at hok
    exact absurd hok (by simp)

variable {pagedir : Bool} {pool : List Nat} {tables : Nat → Bool} {file : Option File} {l : Loaded}
  {ts : List (Transition Kernel SbrkCall)}

/-- **The break.** In every run all calls move the break as they should, if and only if they
stay within the user pages that `load` left and do not wrap around. This is the
exact-condition rule for runs, with `exact_iff` for one call. -/
theorem sbrk_exact_iff (hpool : pool.Nodup) (hload : load pagedir pool tables file = .ok (some l))
    (hrun : Run Step (.ok l.process) ts) :
    (∀ τ ∈ ts, Exact τ) ↔ ∀ τ ∈ ts, τ.pre.Meets (Within l.process) τ.label := by
  have himage := load_image hpool hload
  refine hrun.forall_iff (I := Sane l.process) ?_ ?_ ⟨_, rfl, himage.extends⟩
  · rintro _ c k' ⟨p, rfl, h⟩ hstep
    obtain ⟨hc, rfl⟩ := step_ok hstep
    exact exact_iff h hc
  · rintro _ c k' ⟨p, rfl, h⟩ hwithin hstep
    exact Sane.step ⟨p, rfl, h⟩ hwithin.1 hwithin.2 hstep

/-- Growth, a failure for lack of frames, and a refused shrink. -/
theorem sbrk_exact_iff_sample :
    loadProgram 0x08048000 = .ok (some sample) ∧
      ∀ τ ∈ Run.trace step (.ok sample.process)
        [Process.call 0x1800 [10, 11], Process.call 0x2000 [12], Process.call (-0x2000) []],
        Exact τ :=
  ⟨load_sample,
    (sbrk_exact_iff (by decide) load_sample (Run.of_trace step _ _)).mpr (by decide +kernel)⟩

/-- `sbrk (-0x08049001)` on the empty heap sets the break to `0xffffffff`. -/
theorem underflow_not_exact :
    ∃ ts, Run Step (.ok sample.process) ts ∧ ∃ τ ∈ ts, ¬ Exact τ := by
  refine ⟨_, Run.of_trace step _ [Process.call (-0x08049001) []], ?_⟩
  have hbreak : ∃ τ ∈ Run.trace step (.ok sample.process) [Process.call (-0x08049001) []],
      τ.label.increment < 0 ∧ τ.pre.Meets (fun p c => p.segmentBreak + c.increment < p.startOfHeap)
        τ.label ∧ τ.post.Meets (fun p _ => p.eax ≠ minusOne) τ.label := by
    decide +kernel
  obtain ⟨τ, hτ, hneg, hlow, hret⟩ := hbreak
  refine ⟨τ, hτ, ?_⟩
  rintro ⟨p, p', hpre, hpost, -, hexact⟩
  rw [hpre] at hlow
  rw [hpost] at hret
  exact hret (hexact hneg hlow)

/-! ### Assertions -/

/-- **No panic.** In a run without wrap-around no assertion fails, if and only if every growth
stays within the user pages that `load` left. A growth that does not maps the pages up to one
that is in use or not the user's, unless the frames run out before. -/
theorem sbrk_no_panic_iff (hpool : pool.Nodup)
    (hload : load pagedir pool tables file = .ok (some l)) (hrun : Run Step (.ok l.process) ts)
    (hwrap : ∀ τ ∈ ts, τ.pre.Meets Process.NoWrap τ.label) :
    (∀ τ ∈ ts, ∃ p, τ.post = .ok p) ↔ ∀ τ ∈ ts, τ.pre.Meets l.process.Beyond τ.label := by
  have himage := load_image hpool hload
  have hrun' := hrun.restrict (D := fun τ => τ.pre.Meets Process.NoWrap τ.label) hwrap
  refine hrun'.forall_iff (I := Sane l.process) ?_ ?_ ⟨_, rfl, himage.extends⟩
  · rintro _ c k' ⟨p, rfl, h⟩ ⟨hstep, -⟩
    obtain ⟨hc, rfl⟩ := step_ok hstep
    refine Iff.trans ?_ h.clear_iff
    constructor
    · rintro ⟨p', hok⟩
      by_contra hclear
      obtain ⟨e, he⟩ := (Process.sbrk_panics_iff h.ready hc).mpr hclear
      exact absurd (he.symm.trans hok) (by simp)
    · intro hclear
      obtain ⟨p', hok, -⟩ := Process.sbrk_spec h.ready hc hclear
      exact ⟨p', hok⟩
  · rintro _ c k' ⟨p, rfl, h⟩ hbeyond ⟨hstep, hwrap⟩
    exact Sane.step ⟨p, rfl, h⟩ hwrap hbeyond hstep

theorem sbrk_no_panic_iff_sample :
    loadProgram 0x08048000 = .ok (some sample) ∧
      ∀ τ ∈ Run.trace step (.ok sample.process)
        [Process.call 0x1800 [10, 11], Process.call (-0x800) [], Process.call 0x2000 [12]],
        ∃ p, τ.post = .ok p :=
  ⟨load_sample,
    (sbrk_no_panic_iff (by decide) load_sample (Run.of_trace step _ _) (by decide +kernel)).mpr
      (by decide +kernel)⟩

/-- The process of a program at `PHYS_BASE - 2 * PGSIZE`: its heap starts with the
stack page. -/
def highSample : Loaded := (loadProgram 0xbfffe000).toOption.join.get (by decide +kernel)

/-- `sbrk (1)` there fails the assertion that the page is not mapped. -/
theorem stack_panics : loadProgram 0xbfffe000 = .ok (some highSample) ∧
    ∃ ts, Run Step (.ok highSample.process) ts ∧ ∃ τ ∈ ts, ¬ ∃ p, τ.post = .ok p := by
  refine ⟨eq_ok_get _, _, Run.of_trace step _ [Process.call 1 [10]], ?_⟩
  have hpanic : ∃ τ ∈ Run.trace step (.ok highSample.process) [Process.call 1 [10]],
      τ.post.Meets (fun _ _ => False) τ.label := by
    decide +kernel
  obtain ⟨τ, hτ, hpost⟩ := hpanic
  refine ⟨τ, hτ, ?_⟩
  rintro ⟨p, hp⟩
  rw [hp] at hpost
  exact hpost

end Kernel

end OsTools.Vm

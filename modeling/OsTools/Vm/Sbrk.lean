import OsTools.Lib.Run
import OsTools.Vm.Load
/-!
# OsTools.Vm.Sbrk

The system call `sbrk` (`userprog/syscall.c`). `alloc` maps the pages behind the
break's page, and the first page of the heap when the heap is empty; `dealloc`
unmaps pages from the break's page downwards.

`alloc_spec` and `dealloc_spec` say what a call makes of the page directory;
`alloc_panics` says when a growth trips an assertion instead.

## Proof shape

The loops are about consecutive pages, upwards in `alloc` and downwards in its rollback and
in `dealloc`. Their lemmas say which list of pages they have mapped or unmapped, so that a
call is a concatenation of lists: the first page of an empty heap, then the pages behind the
break (`wanted`), as many as there are frames for (`granted`). A rollback unmaps them in
another order, which does not matter (`Unmapped.congr`).

`alloc` maps what it gets a frame for and panics where that page is mapped already, so that
there are two lemmas with complementary hypotheses, and together an equivalence
(`sbrk_panics_iff`).
-/

namespace OsTools.Vm

/-- `(void *) -1`. -/
def minusOne : Nat := 2 ^ 32 - 1

/-- The loop of `alloc`, `n` rounds from round `i` on: the memory, the next
address and, where the pool was exhausted, the round `j`. -/
def mapPages (tables : Nat → Bool) : Nat → Nat → Mm → Nat → Except Panic (Mm × Nat × Option Nat)
  | 0, _, m, ptalloc => .ok (m, ptalloc, none)
  | n + 1, i, m, ptalloc =>
      match m.pallocGetPage with
      | none => .ok (m, ptalloc, some i)
      | some (page, m) => do
          let (_, pagedir) ← m.pagedir.setPage ptalloc page true (tables (pgNo ptalloc))
          mapPages tables n (i + 1) { m with pagedir } (add32 ptalloc PGSIZE)

/-- The loops that unmap `n` pages downwards. -/
def unmapPages : Nat → Mm → Nat → Except Panic (Mm × Nat)
  | 0, m, ptalloc => .ok (m, ptalloc)
  | n + 1, m, ptalloc => do
      let m ← m.unmapPage ptalloc
      unmapPages n m (sub32 ptalloc PGSIZE)

namespace Process

/-- `alloc` from the computation of `ptalloc` on; `first` says whether the first
page was mapped before. -/
def grow (p : Process) (first : Bool) (increment : Int) (tables : Nat → Bool) :
    Except Panic (Nat × Process) := do
  let sbreak := p.segmentBreak
  let ptalloc := pgRoundUp (add32 sbreak 1)
  let current : Int := pgNo sbreak
  let next : Int := pgNo (add32 sbreak increment)
  let numPages := next - current
  let (mm, ptalloc, fail) ← mapPages tables numPages.toNat 0 p.mm ptalloc
  match fail with
  | some j =>
      let mm ← mm.unmapPageIf first p.startOfHeap
      let ptalloc := sub32 ptalloc PGSIZE
      let (mm, _) ← unmapPages j mm ptalloc
      .ok (minusOne, { p with mm })
  | none =>
      .ok (sbreak, { p with
        mm, previousBreak := sbreak, segmentBreak := add32 sbreak increment })

def alloc (p : Process) (increment : Int) (tables : Nat → Bool) :
    Except Panic (Nat × Process) :=
  if p.startOfHeap = p.segmentBreak then
    match p.mm.pallocGetPage with
    | none => .ok (minusOne, p)
    | some (firstpage, mm) => do
        let (_, pagedir) ← mm.pagedir.setPage p.startOfHeap firstpage true
          (tables (pgNo p.startOfHeap))
        { p with mm := { mm with pagedir } }.grow true increment tables
  else p.grow false increment tables

def dealloc (p : Process) (increment : Int) : Except Panic (Nat × Process) :=
  let sbreak := p.segmentBreak
  if add32 sbreak increment < p.startOfHeap then .ok (minusOne, p)
  else do
    let ptalloc := pgRoundDown sbreak
    let current : Int := pgNo sbreak
    let next : Int := pgNo (add32 sbreak increment)
    let numPages := current - next
    let (mm, ptalloc) ← unmapPages numPages.toNat p.mm ptalloc
    let mm ← mm.unmapPageIf (decide (pgOfs (add32 sbreak increment) = 0)) ptalloc
    .ok (sbreak, { p with
      mm, previousBreak := sbreak, segmentBreak := add32 sbreak increment })

def syscallSbrk (p : Process) (increment : Int) (tables : Nat → Bool) :
    Except Panic (Nat × Process) :=
  if increment = 0 then .ok (p.segmentBreak, p)
  else if 0 < increment then p.alloc increment tables
  else p.dealloc increment

end Process

/-! ### Calls -/

/-- A system call with what the pools have for it. -/
structure SbrkCall where
  increment : Int
  frames : List Nat
  tables : Nat → Bool

namespace Process

/-- A 32-bit increment, and frames that are not in use. -/
def Admits (p : Process) (c : SbrkCall) : Prop :=
  (-2 ^ 31 ≤ c.increment ∧ c.increment < 2 ^ 31) ∧ c.frames.Nodup ∧ ∀ f ∈ c.frames, f ∉ p.mm.used

instance (p : Process) (c : SbrkCall) : Decidable (p.Admits c) :=
  inferInstanceAs (Decidable ((_ ∧ _) ∧ _ ∧ _))

/-- The memory at the start of the call. -/
def supply (p : Process) (c : SbrkCall) : Process := { p with mm := { p.mm with pool := c.frames } }

/-- The system call; the result goes to `eax`. -/
def sbrk (p : Process) (c : SbrkCall) : Except Panic Process := do
  let (ret, p) ← (p.supply c).syscallSbrk c.increment c.tables
  .ok { p with eax := ret }

/-- A system call that returns. -/
def step (p : Process) (c : SbrkCall) : Option Process :=
  if p.Admits c then (p.sbrk c).toOption else none

def Step (p : Process) (c : SbrkCall) (p' : Process) : Prop := p.step c = some p'

/-- The pages a growth asks a frame for, in order. -/
def wanted (p : Process) (increment : Int) : List Nat :=
  (if p.startOfHeap = p.segmentBreak then [pgNo p.startOfHeap] else []) ++
    List.range' (pgNo p.segmentBreak + 1)
      (pgNo (add32 p.segmentBreak increment) - pgNo p.segmentBreak)

/-- The pages it gets a frame for. -/
def granted (p : Process) (c : SbrkCall) : List Nat :=
  (p.wanted c.increment).take c.frames.length

end Process

/-! ### The loops -/

open Mm

variable {m m' : Mm} {tables : Nat → Bool} {p q n i : Nat}

theorem range'_cons (p n : Nat) : List.range' p (n + 1) = [p] ++ List.range' (p + 1) n := rfl

/-- The mapping loop, where it finds its pages free. By induction on the pages that are left;
it stops where the pool is empty, with the index of the page that it has no frame for. -/
theorem mapPages_spec (hm : m.Sound) (hf : m.Fresh)
    (hfree : ∀ q ∈ List.range' p (min n m.pool.length), q < userPages ∧ m.page q = none) :
    ∃ m', mapPages tables n i m (pageAddr p) =
        .ok (m', pageAddr (p + min n m.pool.length),
          if n ≤ m.pool.length then none else some (i + m.pool.length)) ∧
      Mapped tables (List.range' p (min n m.pool.length)) m m' := by
  induction n generalizing m p i with
  | zero =>
      refine ⟨m, ?_, ?_⟩
      · simp [mapPages]
      · simpa using Mapped.nil hm hf
  | succ n ih =>
      unfold mapPages Mm.pallocGetPage
      cases hpool : m.pool with
      | nil =>
          refine ⟨m, ?_, ?_⟩
          · simp
          · simpa using Mapped.nil hm hf
      | cons page pool =>
          have hmin : min (n + 1) (page :: pool).length = min n pool.length + 1 := by
            rw [List.length_cons, Nat.add_min_add_right]
          rw [hpool, hmin] at hfree
          obtain ⟨hp, hnone⟩ := hfree p (by simp)
          obtain ⟨b, pd', hset, hmap⟩ := Mapped.single tables hm hf hpool hp hnone
          have hrest : ∀ q ∈ List.range' (p + 1) (min n pool.length),
              q < userPages ∧ pd'.page q = none := by
            intro q hq
            have hqp := List.mem_range'_1.mp hq
            obtain ⟨hu, hqn⟩ := hfree q (List.mem_range'_1.mpr (by omega))
            exact ⟨hu, (hmap.same q (by simp; omega)).trans hqn⟩
          obtain ⟨m', hrun, hmap'⟩ := @ih _ (p + 1) (i + 1) hmap.sound hmap.fresh hrest
          refine ⟨m', ?_, ?_⟩
          · dsimp only at hrun ⊢
            rw [pgNo_pageAddr, hset, ok_bind]
            dsimp only
            have haddr : p + 1 + min n pool.length = p + (min n pool.length + 1) := by omega
            have hcount : i + 1 + pool.length = i + (pool.length + 1) := by omega
            rw [pageAddr_succ hp, hrun, hmin, haddr, hcount]
            simp only [List.length_cons, Nat.add_le_add_iff_right]
          · rw [hmin, range'_cons]
            refine hmap.trans hmap' fun q hq r hr => ?_
            rw [List.mem_singleton.mp hq]
            exact (List.mem_range'_1.mp hr).1

/-- Where it meets a page that is not free, it panics. -/
theorem mapPages_panics (hm : m.Sound) (hf : m.Fresh)
    (hbad : ∃ q ∈ List.range' p (min n m.pool.length), ¬ (q < userPages ∧ m.page q = none)) :
    ∃ e, mapPages tables n i m (pageAddr p) = .error e := by
  induction n generalizing m p i with
  | zero => simp at hbad
  | succ n ih =>
      unfold mapPages Mm.pallocGetPage
      cases hpool : m.pool with
      | nil => simp [hpool] at hbad
      | cons page pool =>
          dsimp only
          rw [pgNo_pageAddr]
          by_cases hp : p < userPages ∧ m.page p = none
          · obtain ⟨b, pd', hset, hmap⟩ :=
              Mapped.single tables hm hf hpool hp.1 hp.2
            rw [hset, ok_bind]
            dsimp only
            rw [pageAddr_succ hp.1]
            refine ih hmap.sound hmap.fresh ?_
            obtain ⟨q, hq, hqbad⟩ := hbad
            have hqr := List.mem_range'_1.mp hq
            have hqp : q ≠ p := by
              rintro rfl
              exact hqbad hp
            refine ⟨q, List.mem_range'_1.mpr ?_, fun hok => hqbad ⟨hok.1, ?_⟩⟩
            · rw [hpool] at hqr
              simp only [List.length_cons] at hqr
              dsimp only
              omega
            · rw [← hmap.same q (by simpa using hqp)]
              exact hok.2
          · obtain ⟨e, he⟩ := @PageDir.setPage_panics m.pagedir p page true (tables p) hp
            exact ⟨e, by rw [he]; rfl⟩

theorem sub32_pageAddr (hp : p < 2 ^ 20) (hn : 0 < p) :
    sub32 (pageAddr p) PGSIZE = pageAddr (p - 1) := by
  unfold sub32 pageAddr PGSIZE
  omega

/-- The unmapping loop. -/
theorem unmapPages_spec (hm : m.Sound) (hp : n = 0 ∨ p < userPages) (hn : n ≤ p) :
    ∃ m', unmapPages n m (pageAddr p) = .ok (m', pageAddr (p - n)) ∧
      Unmapped (List.range' (p + 1 - n) n) m m' := by
  induction n generalizing m p with
  | zero => exact ⟨m, rfl, Unmapped.nil hm⟩
  | succ n ih =>
      have hpu : p < userPages := hp.resolve_left (by omega)
      have hlt : p < 2 ^ 20 := lt_trans hpu (by decide)
      obtain ⟨m₁, hrun₁, hun₁⟩ := Unmapped.single hm hpu
      obtain ⟨m', hrun, hun⟩ := @ih _ (p - 1) hun₁.sound (Or.inr (by omega)) (by omega)
      refine ⟨m', ?_, ?_⟩
      · unfold unmapPages
        have haddr : p - 1 - n = p - (n + 1) := by omega
        rw [hrun₁, ok_bind, sub32_pageAddr hlt (by omega), hrun, haddr]
      · have hmem : ∀ q, q ∈ List.range' (p + 1 - (n + 1)) (n + 1) ↔
            q ∈ [p] ++ List.range' (p - 1 + 1 - n) n := by
          intro q
          simp only [List.mem_append, List.mem_singleton, List.mem_range'_1]
          omega
        exact (hun₁.trans hun).congr hmem

/-! ### `alloc` -/

namespace Process

variable {t t' : Process} {increment : Int} {ret : Nat} {first : Bool} {c : SbrkCall}

/-- What every state of a process has: the heap starts at a page boundary. -/
structure Steady (t : Process) : Prop where
  sound : t.mm.Sound
  aligned : pgOfs t.startOfHeap = 0
  brk_lt : t.segmentBreak < 2 ^ 32

/-- What the calls rely on: the break is a user address and the heap starts at a
page boundary. -/
structure Ready (t : Process) : Prop where
  sound : t.mm.Sound
  aligned : pgOfs t.startOfHeap = 0
  brk_lt : t.segmentBreak < PHYS_BASE

theorem Ready.steady (h : t.Ready) : t.Steady :=
  ⟨h.sound, h.aligned, lt_trans h.brk_lt (by decide)⟩

/-- What `alloc` leaves. -/
inductive Grown (tables : Nat → Bool) (t : Process) (increment : Int) : Nat → Process → Prop
  | refused {mm : Mm} (hlen : t.mm.pool.length < (t.wanted increment).length) (hm : mm.Sound)
      (hpage : mm.page = t.mm.page)
      (hleak : t.mm.NoLeak → (∀ q ∈ (t.wanted increment).take t.mm.pool.length,
        t.mm.HasTable tables ((t.wanted increment).take t.mm.pool.length) q) → mm.NoLeak)
      (hused : (∀ f, f ∈ mm.used ↔ f ∈ t.mm.used) ↔
        ∀ q ∈ (t.wanted increment).take t.mm.pool.length,
          t.mm.HasTable tables ((t.wanted increment).take t.mm.pool.length) q) :
      Grown tables t increment minusOne { t with mm }
  | grown {mm : Mm} (hlen : (t.wanted increment).length ≤ t.mm.pool.length)
      (hmap : Mapped tables (t.wanted increment) t.mm mm) :
      Grown tables t increment t.segmentBreak { t with
        mm, previousBreak := t.segmentBreak, segmentBreak := add32 t.segmentBreak increment }

theorem toNat_sub_cast (a b : Nat) : ((a : Int) - (b : Int)).toNat = a - b := by omega

/-- A growth that asks for pages starts below the last page. -/
theorem pgNo_succ_lt (h : pgNo t.segmentBreak < pgNo (add32 t.segmentBreak increment)) :
    pgNo t.segmentBreak + 1 < 2 ^ 20 := by
  have hlt : add32 t.segmentBreak increment < 2 ^ 32 := add32_lt _ _
  unfold pgNo PGSIZE at *
  omega

/-- The rest of `alloc`: as many pages as lie between the two breaks are mapped, or, if there
are not enough frames, all that were mapped are unmapped again, with the first page of the
heap if it was new. -/
theorem grow_spec (hm : t.mm.Sound) (hf : t.mm.Fresh) (hofs : pgOfs t.startOfHeap = 0)
    (hstart : first = true → pgNo t.startOfHeap < userPages)
    (hn : n = pgNo (add32 t.segmentBreak increment) - pgNo t.segmentBreak)
    (hfree : ∀ q ∈ List.range' (pgNo t.segmentBreak + 1) (min n t.mm.pool.length),
      q < userPages ∧ t.mm.page q = none) :
    (n ≤ t.mm.pool.length ∧ ∃ mm, t.grow first increment tables = .ok (t.segmentBreak, { t with
        mm, previousBreak := t.segmentBreak, segmentBreak := add32 t.segmentBreak increment }) ∧
      Mapped tables (List.range' (pgNo t.segmentBreak + 1) n) t.mm mm) ∨
    (t.mm.pool.length < n ∧ ∃ m₁ mm, t.grow first increment tables = .ok (minusOne, { t with mm }) ∧
      Mapped tables (List.range' (pgNo t.segmentBreak + 1) t.mm.pool.length) t.mm m₁ ∧
      Unmapped ((if first then [pgNo t.startOfHeap] else []) ++
        List.range' (pgNo t.segmentBreak + 1) t.mm.pool.length) m₁ mm) := by
  rcases Nat.eq_zero_or_pos n with rfl | hpos
  · -- no page is asked for
    refine Or.inl ⟨Nat.zero_le _, t.mm, ?_, Mapped.nil hm hf⟩
    unfold grow
    dsimp only
    rw [toNat_sub_cast, ← hn]
    rfl
  have hcur := @pgNo_succ_lt t increment (by omega)
  obtain ⟨m₁, hrun, hmap⟩ := @mapPages_spec _ tables _ _ 0 hm hf hfree
  unfold grow
  dsimp only
  rw [pgRoundUp_succ hcur, toNat_sub_cast, ← hn, hrun, ok_bind]
  dsimp only
  rcases Nat.lt_or_ge t.mm.pool.length n with hlt | hle
  · rw [if_neg (by omega)]
    rw [Nat.min_eq_right (by omega)] at hmap hfree ⊢
    set j := t.mm.pool.length with hj
    refine Or.inr ⟨hlt, ?_⟩
    obtain ⟨m₂, hrun₂, hun₂⟩ := Unmapped.cond hmap.sound hstart
    rw [pageAddr_pgNo hofs] at hrun₂
    have hlast : j = 0 ∨ pgNo t.segmentBreak + j < userPages := by
      rcases Nat.eq_zero_or_pos j with hz | hpos
      · exact Or.inl hz
      · exact Or.inr (hfree _ (List.mem_range'_1.mpr (by omega))).1
    have hsub : sub32 (pageAddr (pgNo t.segmentBreak + 1 + j)) PGSIZE =
        pageAddr (pgNo t.segmentBreak + j) := by
      rw [sub32_pageAddr ?_ (by omega)]
      · congr 1
        omega
      · have : userPages < 2 ^ 20 := by decide
        omega
    obtain ⟨mm, hrun₃, hun₃⟩ := unmapPages_spec hun₂.sound hlast (Nat.le_add_left _ _)
    have hrange : pgNo t.segmentBreak + j + 1 - j = pgNo t.segmentBreak + 1 := by omega
    rw [hrange] at hun₃
    refine ⟨m₁, mm, ?_, hmap, hun₂.trans hun₃⟩
    dsimp only
    rw [hrun₂, ok_bind, hsub, Nat.zero_add, hrun₃, ok_bind]
  · rw [if_pos hle]
    rw [Nat.min_eq_left hle] at hmap
    exact Or.inl ⟨hle, m₁, rfl, hmap⟩

theorem take_range' (s n k : Nat) : (List.range' s n).take k = List.range' s (min n k) := by
  rcases Nat.le_total n k with h | h
  · rw [List.take_range'_of_length_le h, Nat.min_eq_left h]
  · rw [List.take_range'_of_length_ge h, Nat.min_eq_right h]

theorem wanted_of_ne (hne : t.startOfHeap ≠ t.segmentBreak) :
    t.wanted increment = List.range' (pgNo t.segmentBreak + 1)
      (pgNo (add32 t.segmentBreak increment) - pgNo t.segmentBreak) := by
  unfold wanted
  rw [if_neg hne, List.nil_append]

theorem wanted_of_eq (heq : t.startOfHeap = t.segmentBreak) :
    t.wanted increment = [pgNo t.startOfHeap] ++ List.range' (pgNo t.segmentBreak + 1)
      (pgNo (add32 t.segmentBreak increment) - pgNo t.segmentBreak) := by
  unfold wanted
  rw [if_pos heq]

/-- The first page precedes the others. -/
theorem first_not_mem (heq : t.startOfHeap = t.segmentBreak) :
    pgNo t.startOfHeap ∉ List.range' (pgNo t.segmentBreak + 1) n := by
  intro h
  have := (List.mem_range'_1.mp h).1
  rw [heq] at this
  omega

theorem nodup_wanted : (t.wanted increment).Nodup := by
  by_cases heq : t.startOfHeap = t.segmentBreak
  · rw [wanted_of_eq heq]
    exact List.nodup_cons.mpr ⟨first_not_mem heq, List.nodup_range'⟩
  · rw [wanted_of_ne heq]
    exact List.nodup_range'

/-- A growth that maps the pages it gets frames for and unmaps them again. -/
theorem Grown.undo {m₁ mm : Mm} {qs : List Nat} (hlen : t.mm.pool.length < (t.wanted increment).length)
    (hf : t.mm.Fresh)
    (hfree : ∀ q ∈ (t.wanted increment).take t.mm.pool.length, t.mm.page q = none)
    (hmap : Mapped tables ((t.wanted increment).take t.mm.pool.length) t.mm m₁)
    (hun : Unmapped qs m₁ mm)
    (hmem : ∀ q, q ∈ qs ↔ q ∈ (t.wanted increment).take t.mm.pool.length) :
    Grown tables t increment minusOne { t with mm } := by
  have hnodup := nodup_wanted.sublist (List.take_sublist t.mm.pool.length (t.wanted increment))
  have hcount : ((t.wanted increment).take t.mm.pool.length).length ≤ t.mm.pool.length :=
    List.length_take_le _ _
  exact .refused hlen hun.sound (hmap.undo hun hmem hfree)
    (fun hl hok => hun.noLeak (hmap.noLeak hl hok))
    (hmap.undo_frames hun hf hmem hnodup hcount)

/-- **What `alloc` does** when the pages it gets frames for are free. A heap that is empty
gets its first page before the loop, so that the loop always begins behind a page that is
mapped. -/
theorem alloc_spec (ht : t.Steady) (hf : t.mm.Fresh)
    (hfree : ∀ q ∈ (t.wanted increment).take t.mm.pool.length, q < userPages ∧ t.mm.page q = none) :
    ∃ ret t', t.alloc increment tables = .ok (ret, t') ∧ Grown tables t increment ret t' := by
  unfold alloc
  by_cases heq : t.startOfHeap = t.segmentBreak
  · rw [if_pos heq]
    have hwant := @wanted_of_eq _ increment heq
    cases hpool : t.mm.pool with
    | nil =>
        -- the heap is empty, and there is no page to start it with
        simp only [Mm.pallocGetPage, hpool]
        exact ⟨_, _, rfl, .refused (by simp [hpool, hwant]) ht.sound rfl (fun hl _ => hl)
          (by simp [hpool])⟩
    | cons firstpage pool =>
        simp only [Mm.pallocGetPage, hpool]
        rw [hwant, hpool, List.length_cons, List.singleton_append, List.take_succ_cons,
          take_range'] at hfree
        obtain ⟨hu, hnone⟩ := hfree (pgNo t.startOfHeap) List.mem_cons_self
        obtain ⟨b, pd', hset, hmap⟩ := Mapped.single tables ht.sound hf hpool hu hnone
        rw [pageAddr_pgNo ht.aligned] at hset
        rw [hset, ok_bind]
        dsimp only
        set t₁ : Process := { t with mm := ⟨pd', firstpage :: t.mm.used, pool⟩ } with ht₁
        have hfree₁ : ∀ q ∈ List.range' (pgNo t₁.segmentBreak + 1)
            (min (pgNo (add32 t₁.segmentBreak increment) - pgNo t₁.segmentBreak) pool.length),
            q < userPages ∧ t₁.mm.page q = none := by
          intro q hq
          have hne : q ∉ [pgNo t.startOfHeap] := by
            intro h
            rw [List.mem_singleton.mp h] at hq
            exact first_not_mem heq hq
          obtain ⟨hqu, hqn⟩ := hfree q (List.mem_cons_of_mem _ hq)
          exact ⟨hqu, (hmap.same q hne).trans hqn⟩
        have hord : ∀ k, ∀ q ∈ [pgNo t.startOfHeap],
            ∀ r ∈ List.range' (pgNo t.segmentBreak + 1) k, q < r := by
          intro k q hq r hr
          rw [List.mem_singleton.mp hq, heq]
          exact (List.mem_range'_1.mp hr).1
        rcases @grow_spec tables _ t₁ increment true hmap.sound hmap.fresh ht.aligned
          (fun _ => hu) rfl hfree₁ with ⟨hle, mm, hrun, hmap'⟩ | ⟨hlt, m₁, mm, hrun, hmap', hun⟩
        · refine ⟨_, _, hrun, .grown ?_ ?_⟩
          · rw [hwant, hpool]
            simpa using hle
          · rw [hwant]
            exact hmap.trans hmap' (hord _)
        · -- the pool ran out: the first page and the others are given back together
          have hall := hmap.trans hmap' (hord _)
          have htake : (t.wanted increment).take t.mm.pool.length =
              [pgNo t.startOfHeap] ++ List.range' (pgNo t.segmentBreak + 1) pool.length := by
            rw [hwant, hpool, List.length_cons, List.singleton_append, List.take_succ_cons,
              take_range', Nat.min_eq_right (Nat.le_of_lt hlt)]
            rfl
          refine ⟨_, _, hrun, Grown.undo ?_ hf ?_ (by rwa [htake]) hun (fun q => by rw [htake]; rfl)⟩
          · rw [hwant, hpool]
            simpa using hlt
          · intro q hq
            rw [htake] at hq
            rw [Nat.min_eq_right (Nat.le_of_lt hlt)] at hfree
            exact (hfree q hq).2
  · rw [if_neg heq]
    have hwant := @wanted_of_ne _ increment heq
    rw [hwant, take_range'] at hfree
    rcases @grow_spec tables _ t increment false ht.sound hf ht.aligned (by simp) rfl
      hfree with ⟨hle, mm, hrun, hmap⟩ | ⟨hlt, m₁, mm, hrun, hmap, hun⟩
    · refine ⟨_, _, hrun, .grown ?_ ?_⟩
      · rw [hwant]
        simpa using hle
      · rwa [hwant]
    · have htake : (t.wanted increment).take t.mm.pool.length =
          List.range' (pgNo t.segmentBreak + 1) t.mm.pool.length := by
        rw [hwant, take_range', Nat.min_eq_right (Nat.le_of_lt hlt)]
      refine ⟨_, _, hrun, Grown.undo ?_ hf ?_ (by rwa [htake]) hun (by simp [htake])⟩
      · rw [hwant]
        simpa using hlt
      · intro q hq
        rw [htake] at hq
        rw [Nat.min_eq_right (Nat.le_of_lt hlt)] at hfree
        exact (hfree q hq).2

/-- Otherwise it panics: the pages before the bad one are mapped, and `pagedir_set_page`
asserts that the bad one is a user page and free. -/
theorem alloc_panics (ht : t.Steady) (hf : t.mm.Fresh)
    (hbad : ∃ q ∈ (t.wanted increment).take t.mm.pool.length,
      ¬ (q < userPages ∧ t.mm.page q = none)) :
    ∃ e, t.alloc increment tables = .error e := by
  have hgrow : ∀ {t₁ : Process} {first : Bool}, t₁.mm.Sound → t₁.mm.Fresh →
      t₁.segmentBreak = t.segmentBreak →
      (∃ q ∈ List.range' (pgNo t.segmentBreak + 1)
        (min (pgNo (add32 t.segmentBreak increment) - pgNo t.segmentBreak) t₁.mm.pool.length),
        ¬ (q < userPages ∧ t₁.mm.page q = none)) →
      ∃ e, t₁.grow first increment tables = .error e := by
    intro t₁ first hm₁ hf₁ hbrk hbad₁
    have hcur : pgNo t.segmentBreak + 1 < 2 ^ 20 := by
      obtain ⟨q, hq, -⟩ := hbad₁
      have hmem := List.mem_range'_1.mp hq
      exact @pgNo_succ_lt t increment (by omega)
    obtain ⟨e, he⟩ := @mapPages_panics _ tables _ _ 0 hm₁ hf₁ hbad₁
    refine ⟨e, ?_⟩
    unfold grow
    dsimp only
    rw [hbrk, pgRoundUp_succ hcur, toNat_sub_cast, he]
    rfl
  unfold alloc
  by_cases heq : t.startOfHeap = t.segmentBreak
  · rw [if_pos heq]
    rw [wanted_of_eq heq] at hbad
    cases hpool : t.mm.pool with
    | nil => simp [hpool] at hbad
    | cons firstpage pool =>
        simp only [Mm.pallocGetPage, hpool]
        rw [hpool, List.length_cons, List.singleton_append, List.take_succ_cons, take_range'] at hbad
        by_cases hfirst : pgNo t.startOfHeap < userPages ∧ t.mm.page (pgNo t.startOfHeap) = none
        · obtain ⟨b, pd', hset, hmap⟩ :=
            Mapped.single tables ht.sound hf hpool hfirst.1 hfirst.2
          rw [pageAddr_pgNo ht.aligned] at hset
          rw [hset, ok_bind]
          dsimp only
          refine hgrow hmap.sound hmap.fresh rfl ?_
          obtain ⟨q, hq, hqbad⟩ := hbad
          rcases List.mem_cons.mp hq with rfl | hq
          · exact absurd hfirst hqbad
          · refine ⟨q, hq, fun hok => hqbad ⟨hok.1, ?_⟩⟩
            have hne : q ∉ [pgNo t.startOfHeap] := by
              intro h
              rw [List.mem_singleton.mp h] at hq
              exact first_not_mem heq hq
            rw [← hmap.same q hne]
            exact hok.2
        · obtain ⟨e, he⟩ := @PageDir.setPage_panics t.mm.pagedir (pgNo t.startOfHeap) firstpage true
            (tables (pgNo t.startOfHeap)) hfirst
          rw [pageAddr_pgNo ht.aligned] at he
          exact ⟨e, by rw [he]; rfl⟩
  · rw [if_neg heq]
    rw [wanted_of_ne heq, take_range'] at hbad
    exact hgrow ht.sound hf rfl hbad

/-! ### `dealloc` -/

/-- The pages that a shrink to `newBreak` unmaps. -/
def unmapped (t : Process) (newBreak : Nat) : List Nat :=
  let n := pgNo t.segmentBreak - pgNo newBreak
  List.range' (pgNo t.segmentBreak + 1 - n) n ++
    (if decide (pgOfs newBreak = 0) then [pgNo t.segmentBreak - n] else [])

/-- **What `dealloc` does.** -/
theorem dealloc_spec (ht : t.Ready) :
    (add32 t.segmentBreak increment < t.startOfHeap ∧ t.dealloc increment = .ok (minusOne, t)) ∨
    (t.startOfHeap ≤ add32 t.segmentBreak increment ∧
      ∃ mm, t.dealloc increment = .ok (t.segmentBreak, { t with
        mm, previousBreak := t.segmentBreak, segmentBreak := add32 t.segmentBreak increment }) ∧
      Unmapped (t.unmapped (add32 t.segmentBreak increment)) t.mm mm) := by
  have hcur : pgNo t.segmentBreak < userPages := by
    have := ht.brk_lt
    unfold pgNo userPages PGSIZE PHYS_BASE at *
    omega
  unfold dealloc unmapped
  dsimp only
  rcases Nat.lt_or_ge (add32 t.segmentBreak increment) t.startOfHeap with hlt | hge
  · exact Or.inl ⟨hlt, if_pos hlt⟩
  · right
    refine ⟨hge, ?_⟩
    rw [if_neg (by omega), toNat_sub_cast, pgRoundDown_eq]
    set n := pgNo t.segmentBreak - pgNo (add32 t.segmentBreak increment) with hn
    obtain ⟨m₁, hrun₁, hun₁⟩ := unmapPages_spec ht.sound (Or.inr hcur) (show n ≤ _ by omega)
    obtain ⟨mm, hrun, hun⟩ := @Unmapped.cond _ (pgNo t.segmentBreak - n)
      (decide (pgOfs (add32 t.segmentBreak increment) = 0)) hun₁.sound fun _ => by omega
    refine ⟨mm, ?_, hun₁.trans hun⟩
    rw [hrun₁, ok_bind]
    dsimp only
    rw [hrun, ok_bind]

/-! ### One call -/

/-- The break after a call that succeeds. -/
def newBreak (t : Process) (c : SbrkCall) : Nat := add32 t.segmentBreak c.increment

/-- What one call makes of the process. -/
inductive Effect (t : Process) (c : SbrkCall) : Process → Prop
  | query (hinc : c.increment = 0) : Effect t c { t.supply c with eax := t.segmentBreak }
  | refused {mm : Mm}
      (hwhy : (0 < c.increment ∧ c.frames.length < (t.wanted c.increment).length) ∨
        (c.increment < 0 ∧ t.newBreak c < t.startOfHeap))
      (hm : mm.Sound) (hpage : mm.page = t.mm.page)
      (hleak : t.mm.NoLeak →
        (0 < c.increment → ∀ q ∈ t.granted c, t.mm.HasTable c.tables (t.granted c) q) →
        mm.NoLeak)
      (hused : (∀ f, f ∈ mm.used ↔ f ∈ t.mm.used) ↔
        (0 < c.increment → ∀ q ∈ t.granted c, t.mm.HasTable c.tables (t.granted c) q)) :
      Effect t c { t with mm, eax := minusOne }
  | grown {mm : Mm} (hinc : 0 < c.increment)
      (hlen : (t.wanted c.increment).length ≤ c.frames.length)
      (hmap : Mapped c.tables (t.wanted c.increment) (t.supply c).mm mm) :
      Effect t c { t with
        mm, previousBreak := t.segmentBreak, segmentBreak := t.newBreak c, eax := t.segmentBreak }
  | shrunk {mm : Mm} (hinc : c.increment < 0) (hge : t.startOfHeap ≤ t.newBreak c)
      (hun : Unmapped (t.unmapped (t.newBreak c)) (t.supply c).mm mm) :
      Effect t c { t with
        mm, previousBreak := t.segmentBreak, segmentBreak := t.newBreak c, eax := t.segmentBreak }

/-- The pages a growth gets frames for are free user pages. -/
def Clear (t : Process) (c : SbrkCall) : Prop :=
  0 < c.increment → ∀ q ∈ t.granted c, q < userPages ∧ t.mm.page q = none

instance (t : Process) (c : SbrkCall) : Decidable (t.Clear c) := inferInstanceAs (Decidable (_ → _))

theorem Ready.supply (ht : t.Ready) : (t.supply c).Ready :=
  ⟨⟨ht.sound.user, ht.sound.nodup, ht.sound.used, ht.sound.inj⟩, ht.aligned, ht.brk_lt⟩

theorem Admits.fresh (hc : t.Admits c) : (t.supply c).mm.Fresh := ⟨hc.2.1, hc.2.2⟩

/-- A call on free pages returns. -/
theorem sbrk_spec (ht : t.Ready) (hc : t.Admits c) (hclear : t.Clear c) :
    ∃ t', t.sbrk c = .ok t' ∧ Effect t c t' := by
  unfold sbrk syscallSbrk
  by_cases hzero : c.increment = 0
  · rw [if_pos hzero]
    exact ⟨_, rfl, .query hzero⟩
  · rw [if_neg hzero]
    by_cases hpos : 0 < c.increment
    · rw [if_pos hpos]
      obtain ⟨ret, t', hrun, hgrown⟩ :=
        @alloc_spec c.tables _ _ ht.supply.steady hc.fresh (hclear hpos)
      rw [hrun, ok_bind]
      refine ⟨_, rfl, ?_⟩
      cases hgrown with
      | refused hlen hm hpage hleak hused =>
          exact .refused (Or.inl ⟨hpos, hlen⟩) hm hpage (fun hl htab => hleak hl (htab hpos))
            (hused.trans ⟨fun h _ => h, fun h => h hpos⟩)
      | grown hlen hmap => exact .grown hpos hlen hmap
    · rw [if_neg hpos]
      have hneg : c.increment < 0 := by omega
      rcases @dealloc_spec _ c.increment ht.supply with
        ⟨hlt, hrun⟩ | ⟨hge, mm, hrun, hun⟩
      · rw [hrun, ok_bind]
        exact ⟨_, rfl, .refused (Or.inr ⟨hneg, hlt⟩) ht.supply.sound rfl (fun hl _ => hl)
          (iff_of_true (fun _ => Iff.rfl) fun h => absurd h hpos)⟩
      · rw [hrun, ok_bind]
        exact ⟨_, rfl, .shrunk hneg hge hun⟩

/-- **No assertion fails** exactly where a growth is granted free user pages. -/
theorem sbrk_panics_iff (ht : t.Ready) (hc : t.Admits c) :
    (∃ e, t.sbrk c = .error e) ↔ ¬ t.Clear c := by
  constructor
  · rintro ⟨e, he⟩ hclear
    obtain ⟨t', hrun, -⟩ := sbrk_spec ht hc hclear
    rw [hrun] at he
    exact absurd he (by simp)
  · intro hno
    obtain ⟨hpos, hbad⟩ : 0 < c.increment ∧
        ∃ q ∈ t.granted c, ¬ (q < userPages ∧ t.mm.page q = none) := by
      by_contra h
      refine hno fun hpos q hq => ?_
      by_contra hq'
      exact h ⟨hpos, q, hq, hq'⟩
    obtain ⟨e, he⟩ := @alloc_panics c.tables _ _ ht.supply.steady hc.fresh hbad
    refine ⟨e, ?_⟩
    unfold sbrk syscallSbrk
    rw [if_neg (by omega), if_pos hpos, he]
    rfl

/-- **One step.** -/
theorem step_effect (ht : t.Ready) (hstep : t.Step c t') :
    t.Admits c ∧ t.Clear c ∧ Effect t c t' := by
  unfold Step step at hstep
  split at hstep
  · rename_i hc
    by_cases hclear : t.Clear c
    · obtain ⟨t₁, hrun, heff⟩ := sbrk_spec ht hc hclear
      rw [hrun] at hstep
      obtain rfl := Option.some.inj hstep
      exact ⟨hc, hclear, heff⟩
    · obtain ⟨e, he⟩ := (sbrk_panics_iff ht hc).mpr hclear
      rw [he] at hstep
      exact absurd hstep (by simp [Except.toOption])
  · exact absurd hstep (by simp)

end Process

end OsTools.Vm

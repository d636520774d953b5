import OsTools.Paging.Mmu
import OsTools.Threads.PallocSafe
/-!
# OsTools.Paging.Init

The page directories that the kernel starts with. `threads/start.S` makes one that maps the
first 64 MB of memory twice, at address 0 and at `PHYS_BASE`. `paging_init` (`threads/init.c`)
then makes `init_page_dir`, out of the pages that `palloc_get_page` returns right after
`palloc_init`, and loads it into `cr3`.

## Proof shape

The loop of `paging_init` goes over the physical pages in order and makes a page table
whenever it comes to a directory entry that is empty, which is so for every 1024th page.
`Filled t n` says that `t` page tables and `n` entries have been made; the two things that a
pass may do are `Filled.open` and `Filled.write`, and `Filled.step` combines them. Until an
entry has been written it is zero, because the pages come zeroed, and it is written once.

That there are enough pages is counted separately. `palloc_init` has just run, nothing has
been taken, and the kernel pool has at least as many free pages as the directory and the
page tables are (`kernelPool_tables`); they are distinct, and above the first megabyte, so
that neither the kernel's image nor the tables of `start.S` are overwritten.

What the entries mean is then read off with the page-table walk of `OsTools.Paging.Mmu`,
once for the tables of `start.S` and once for those of `paging_init`.
-/

namespace OsTools.Paging

open OsTools.Kernel (Stop)
open OsTools.Threads (Ram pallocInit)

/-! ### `start.S` -/

/-- The temporary page directory, at the physical address `0xf000`. -/
def startDir : Word := 0xc000f000#32

/-- The page tables, which follow one another from `0x10000` on. -/
def startTable (j : Nat) : Word := 0xc0010000#32 + BitVec.ofNat 32 (0x1000 * j)

/-- A directory entry, and the identical one for the addresses from `LOADER_PHYS_BASE` on. -/
def storePde (s : State) (i : Nat) : State :=
  let pde := 0x10007#32 + BitVec.ofNat 32 (0x1000 * i)
  (s.write startDir i pde).write startDir (i + 768) pde

/-- The entry for the physical page `i`. -/
def storePte (s : State) (i : Nat) : State :=
  s.write (startTable (i / 1024)) (i % 1024) (0x7#32 + BitVec.ofNat 32 (0x1000 * i))

/-- The loop over the first `cnt` directory entries. -/
def storePdes (cnt : Nat) (s : State) : State := (List.range cnt).foldl storePde s

/-- The loop over the first `cnt` pages. -/
def storePtes (cnt : Nat) (s : State) : State := (List.range cnt).foldl storePte s

/-- What `start` writes before it turns paging on. -/
def startPaging (s : State) : State :=
  storePtes 0x4000 (storePdes 0x11 (s.setPage startDir fun _ => 0))

/-! ### `paging_init` -/

inductive InitPanic
  /-- `PAL_ASSERT`. -/
  | outOfPages
  | assertion (p : Panic)
  deriving DecidableEq

/-- The variables of the loop, with the pages that `palloc_get_page` is going to return. -/
structure Mapping where
  pt : Word
  pages : List Word
  s : State

def inKernelText (start endKernelText vaddr : Word) : Bool :=
  decide (start ≤ vaddr ∧ vaddr < endKernelText)

/-- A page table for the entry `pdeIdx` of the directory, if there is none. -/
def pageTable (pd : Word) (pdeIdx : Nat) (m : Mapping) : Except InitPanic Mapping :=
  if m.s.mem pd pdeIdx = 0 then
    match m.pages with
    | [] => .error .outOfPages
    | pt :: pages => do
        let pde ← (pdeCreate pt).mapError .assertion
        .ok ⟨pt, pages, (m.s.takeZeroed pt).write pd pdeIdx pde⟩
  else .ok m

/-- The body of the loop. -/
def mapPage (start endKernelText pd : Word) (m : Mapping) (page : Nat) :
    Except InitPanic Mapping := do
  let vaddr ← (ptov (BitVec.ofNat 32 (page * 4096))).mapError .assertion
  let m ← pageTable pd (pdNo vaddr) m
  let pte ← (pteCreateKernel vaddr (!inKernelText start endKernelText vaddr)).mapError .assertion
  .ok { m with s := m.s.write m.pt (ptNo vaddr) pte }

/-- `paging_init`: the directory, and what is loaded into `cr3`. -/
def pagingInit (initRamPages : Nat) (start endKernelText : Word) (pages : List Word) (s : State) :
    Except InitPanic (Word × Word × State) :=
  match pages with
  | [] => .error .outOfPages
  | pd :: pages => do
      let m ← (List.range initRamPages).foldlM (mapPage start endKernelText pd)
        ⟨0, pages, s.takeZeroed pd⟩
      let cr3 ← (vtop pd).mapError .assertion
      .ok (pd, cr3, m.s)

/-- What `cnt` calls of `palloc_get_page(PAL_ASSERT | PAL_ZERO)` return. -/
def pallocGetPages : Nat → Ram → Except Stop (Ram × List Nat)
  | 0, r => .ok (r, [])
  | cnt + 1, r => do
      let (r, page) ← r.pallocGetMultiple { assert := true, zero := true } 1
      let (r, pages) ← pallocGetPages cnt r
      .ok (r, page :: pages)

/-! ### The pages -/

section Pages

open OsTools.Threads OsTools.Kernel

variable {r : Ram} {i n : Nat}

/-- The first free page of the kernel pool. The pages in use are the first `i` ones, so that
the scan stops at the page `i`; behind the call the same is so for `i + 1`. -/
theorem pallocGetPage_first (hp : r.kernelPool.Placed) (hi : i < r.kernelPool.usedMap.bitCnt)
    (hbits : ∀ j < r.kernelPool.usedMap.bitCnt, r.kernelPool.usedMap.bit j = decide (j < i)) :
    ∃ r', r.pallocGetMultiple { assert := true, zero := true } 1 =
        .ok (r', r.kernelPool.page i) ∧
      r'.kernelPool.base = r.kernelPool.base ∧
      r'.kernelPool.usedMap.bitCnt = r.kernelPool.usedMap.bitCnt ∧
      ∀ j < r.kernelPool.usedMap.bitCnt, r'.kernelPool.usedMap.bit j = decide (j < i + 1) := by
  obtain ⟨b, idx, hscan, hcnt, hnone, hsome⟩ := Bitmap.scanAndFlip_spec hp.bitmap 1
  have hgroup : ∀ j < r.kernelPool.usedMap.bitCnt,
      r.kernelPool.usedMap.Group j 1 false ↔ i ≤ j := by
    intro j hj
    unfold Bitmap.Group
    constructor
    · intro hall
      have := hall j (le_refl j) (by omega)
      rw [hbits j hj, decide_eq_false_iff_not] at this
      omega
    · intro hle k hk hk'
      obtain rfl : k = j := by omega
      rw [hbits k hj, decide_eq_false_iff_not]
      omega
  cases idx with
  | none => exact absurd ((hgroup i hi).mpr (le_refl i)) ((hnone rfl).2 i hi)
  | some j =>
      obtain ⟨hfirst, hbit⟩ := hsome j rfl
      have hj : j < r.kernelPool.usedMap.bitCnt := hfirst.le
      have hle : i ≤ j := (hgroup j hj).mp hfirst.group
      have hge : ¬ i < j := fun hlt =>
        hfirst.first i (Nat.zero_le i) hlt ((hgroup i hi).mpr (le_refl i))
      obtain rfl : j = i := by omega
      have hpos := hp.pos
      refine ⟨⟨r.mem.fill (r.kernelPool.page j) (4096 * 1 % 2 ^ 32) 0, ⟨b, r.kernelPool.base⟩,
        r.userPool⟩, ?_, rfl, hcnt, fun k hk => ?_⟩
      · unfold Ram.pallocGetMultiple
        rw [if_neg (by decide)]
        show (r.kernelPool.usedMap.scanAndFlip 0 1 false >>= _) = _
        rw [hscan, ok_bind]
        show (if r.kernelPool.page j ≠ 0 then _ else _) = _
        rw [if_pos (by unfold Pool.page; omega)]
        rfl
      · show b.bit k = _
        rw [hbit k, hbits k hk]
        by_cases hk' : j ≤ k ∧ k < j + 1
        · rw [if_pos hk', eq_comm, decide_eq_true_iff]
          exact hk'.2
        · rw [if_neg hk', decide_eq_decide]
          omega

/-- The pages come in order. -/
theorem pallocGetPages_eq (hp : r.kernelPool.Placed) (hn : i + n ≤ r.kernelPool.usedMap.bitCnt)
    (hbits : ∀ j < r.kernelPool.usedMap.bitCnt, r.kernelPool.usedMap.bit j = decide (j < i)) :
    ∃ r', pallocGetPages n r = .ok (r', (List.range' i n).map r.kernelPool.page) := by
  induction n generalizing r i with
  | zero => exact ⟨r, rfl⟩
  | succ n ih =>
      obtain ⟨r₁, hget, hbase, hcnt, hbits₁⟩ := pallocGetPage_first hp (by omega) hbits
      have hp₁ : r₁.kernelPool.Placed :=
        ⟨by rw [hbase]; exact hp.aligned, by rw [hbase]; exact hp.pos,
          by rw [hbase, hcnt]; exact hp.fits⟩
      have hpage : r₁.kernelPool.page = r.kernelPool.page := by
        funext j
        unfold Pool.page
        rw [hbase]
      obtain ⟨r₂, hrest⟩ := ih (i := i + 1) hp₁ (by omega) (by rw [hcnt]; exact hbits₁)
      refine ⟨r₂, ?_⟩
      unfold pallocGetPages
      rw [hget, ok_bind]
      dsimp only
      rw [hrest, ok_bind, hpage]
      rfl

end Pages

/-! ### Physical pages and their entries -/

/-- The kernel address of a physical page. -/
def vaddrOf (page : Nat) : Word := BitVec.ofNat 32 (page * 4096) + PHYS_BASE

/-- The entry that `paging_init` makes for it. -/
def kernelPte (start endKernelText : Word) (page : Nat) : Word :=
  BitVec.ofNat 32 (page * 4096) ||| PTE_P |||
    if !inKernelText start endKernelText (vaddrOf page) then PTE_W else 0

section Frames

variable {start endKernelText va : Word} {page : Nat}

theorem toNat_vaddrOf (h : page < 262144) : (vaddrOf page).toNat = 0xc0000000 + page * 4096 := by
  have hbase : PHYS_BASE.toNat = 0xc0000000 := rfl
  unfold vaddrOf
  rw [BitVec.toNat_add, BitVec.toNat_ofNat, hbase]
  omega

theorem pdNo_vaddrOf (h : page < 262144) : pdNo (vaddrOf page) = 768 + page / 1024 := by
  rw [pdNo_eq, toNat_vaddrOf h]
  omega

theorem ptNo_vaddrOf (h : page < 262144) : ptNo (vaddrOf page) = page % 1024 := by
  rw [ptNo_eq, toNat_vaddrOf h]
  omega

theorem page_vaddrOf (h : page < 262144) : Page (vaddrOf page) := by
  refine ⟨BitVec.eq_of_toNat_eq ?_, isKernelVaddr_iff.mpr ?_⟩
  · rw [toNat_pgOfs, toNat_vaddrOf h]
    show _ = 0
    omega
  · rw [pdNo_vaddrOf h]
    omega

theorem vaddrOf_sub (page : Nat) : vaddrOf page - PHYS_BASE = BitVec.ofNat 32 (page * 4096) :=
  BitVec.add_sub_cancel _ _

theorem ptov_page (h : page < 262144) :
    ptov (BitVec.ofNat 32 (page * 4096)) = .ok (vaddrOf page) := by
  have hlt := (page_vaddrOf h).paddr.2
  rw [vaddrOf_sub] at hlt
  unfold ptov
  rw [if_pos hlt]
  rfl

theorem pteCreateKernel_page (h : page < 262144) :
    pteCreateKernel (vaddrOf page) (!inKernelText start endKernelText (vaddrOf page)) =
      .ok (kernelPte start endKernelText page) := by
  unfold pteCreateKernel
  rw [if_neg (by rw [(page_vaddrOf h).aligned]; decide), (page_vaddrOf h).vtop, vaddrOf_sub]
  rfl

/-- The page of an address. -/
theorem exists_page (hva : 768 ≤ pdNo va) :
    ∃ page < 262144, va.toNat = 0xc0000000 + page * 4096 + va.toNat % 4096 ∧
      pdNo va = 768 + page / 1024 ∧ ptNo va = page % 1024 := by
  have hlt := va.isLt
  rw [pdNo_eq] at hva
  refine ⟨va.toNat / 4096 - 0xc0000, by omega, by omega, ?_, ?_⟩
  · rw [pdNo_eq]
    omega
  · rw [ptNo_eq]
    omega

/-- An address less its offset is that of its page. -/
theorem sub_pgOfs (h : page < 262144)
    (hva : va.toNat = 0xc0000000 + page * 4096 + va.toNat % 4096) :
    va - pgOfs va = vaddrOf page := by
  refine BitVec.eq_of_toNat_eq ?_
  have hofs := toNat_pgOfs va
  rw [BitVec.toNat_sub, hofs, toNat_vaddrOf h]
  omega

/-- The entry leads to the physical page, for the kernel only; and it may be written unless
the page holds the kernel's code. -/
theorem leaf_kernelPte (h : page < 262144)
    (hva : va.toNat = 0xc0000000 + page * 4096 + va.toNat % 4096) :
    leaf va (kernelPte start endKernelText page) =
      some ⟨va - PHYS_BASE, !inKernelText start endKernelText (va - pgOfs va), false⟩ := by
  have hpage := page_vaddrOf h
  have haddr : kernelPte start endKernelText page &&& PTE_ADDR = vaddrOf page - PHYS_BASE := by
    unfold kernelPte
    rw [or_and_of_disjoint (by split <;> decide), or_and_of_disjoint (by decide), ← vaddrOf_sub]
    exact hpage.paddr.1
  have hflag : ∀ m, PTE_ADDR &&& m = 0 → BitVec.ofNat 32 (page * 4096) &&& m = 0 := by
    intro m hm
    rw [← vaddrOf_sub]
    exact hpage.flag hm
  have hpresent : kernelPte start endKernelText page &&& PTE_P = PTE_P := by
    unfold kernelPte
    rw [or_and_of_disjoint (by split <;> decide), or_and_mask]
  have huser : kernelPte start endKernelText page &&& PTE_U = 0 := by
    unfold kernelPte
    rw [or_and_of_disjoint (by split <;> decide), or_and_of_disjoint (by decide)]
    exact hflag _ (by decide)
  have hwritable : kernelPte start endKernelText page &&& PTE_W ≠ 0 ↔
      inKernelText start endKernelText (vaddrOf page) = false := by
    unfold kernelPte
    cases inKernelText start endKernelText (vaddrOf page) with
    | true =>
        rw [Bool.not_true, if_neg (by decide), or_and_of_disjoint (by decide),
          or_and_of_disjoint (by decide), hflag _ (by decide)]
        decide
    | false =>
        rw [Bool.not_false, if_pos rfl, or_and_mask]
        decide
  unfold leaf
  rw [if_neg (by rw [hpresent]; decide), haddr, huser, sub_pgOfs h hva]
  have hsub : vaddrOf page - PHYS_BASE + pgOfs va = va - PHYS_BASE := by
    rw [← sub_pgOfs h hva]
    bv_omega
  rw [hsub]
  congr 2
  rw [Bool.eq_iff_iff, decide_eq_true_iff, hwritable, Bool.not_eq_true']

end Frames

/-! ### The tables of `start.S` -/

def startPde (i : Nat) : Word := 0x10007#32 + BitVec.ofNat 32 (0x1000 * i)

def startPte (i : Nat) : Word := 0x7#32 + BitVec.ofNat 32 (0x1000 * i)

/-- The first 64 MB are mapped at address 0 and at `PHYS_BASE`. -/
structure Started (s : State) : Prop where
  low : ∀ j < 16, s.mem startDir j = startPde j
  high : ∀ j < 16, s.mem startDir (768 + j) = startPde j
  table : ∀ page < 16384, s.mem (startTable (page / 1024)) (page % 1024) = startPte page

section Start

variable {s : State} {va : Word} {n i j page : Nat}

theorem toNat_startTable (h : j < 16) : (startTable j).toNat = 0xc0010000 + 0x1000 * j := by
  unfold startTable
  rw [BitVec.toNat_add, BitVec.toNat_ofNat, BitVec.toNat_ofNat]
  omega

theorem startTable_inj (hi : i < 16) (hj : j < 16) (h : startTable i = startTable j) : i = j := by
  have heq := congrArg BitVec.toNat h
  rw [toNat_startTable hi, toNat_startTable hj] at heq
  omega

theorem startTable_ne (hj : j < 16) : startTable j ≠ startDir := by
  intro h
  have heq := congrArg BitVec.toNat h
  rw [toNat_startTable hj] at heq
  have : startDir.toNat = 0xc000f000 := rfl
  omega

/-- The directory behind the first loop of `start.S`: the entries are there twice, and there
are too few of them for the two copies to meet. -/
theorem storePdes_dir (hn : n ≤ 17) (s : State) (d : Nat) :
    (storePdes n s).mem startDir d =
      if d < n then startPde d
      else if 768 ≤ d ∧ d < 768 + n then startPde (d - 768) else s.mem startDir d := by
  induction n with
  | zero =>
      rw [if_neg (by omega), if_neg (by omega)]
      rfl
  | succ n ih =>
      have hsucc : storePdes (n + 1) s = storePde (storePdes n s) n := by
        unfold storePdes
        rw [List.range_succ, List.foldl_append, List.foldl_cons, List.foldl_nil]
      have hstep : (storePde (storePdes n s) n).mem startDir =
          Function.update (Function.update ((storePdes n s).mem startDir) n (startPde n))
            (n + 768) (startPde n) := by
        unfold storePde State.write State.setPage
        dsimp only
        rw [Function.update_self, Function.update_self]
        rfl
      rw [hsucc, hstep]
      by_cases hhigh : d = n + 768
      · subst hhigh
        rw [Function.update_self, if_neg (by omega), if_pos (by omega), Nat.add_sub_cancel]
      · rw [Function.update_of_ne hhigh]
        by_cases hlow : d = n
        · subst hlow
          rw [Function.update_self, if_pos (by omega)]
        · rw [Function.update_of_ne hlow, ih (by omega)]
          by_cases hfirst : d < n
          · rw [if_pos hfirst, if_pos (by omega)]
          · rw [if_neg hfirst, if_neg (show ¬ d < n + 1 by omega)]
            have hiff : 768 ≤ d ∧ d < 768 + n ↔ 768 ≤ d ∧ d < 768 + (n + 1) := by omega
            rw [if_congr hiff rfl rfl]

theorem storePtes_succ (n : Nat) (s : State) :
    storePtes (n + 1) s = storePte (storePtes n s) n := by
  unfold storePtes
  rw [List.range_succ, List.foldl_append, List.foldl_cons, List.foldl_nil]

theorem storePtes_dir (hn : n ≤ 16384) (s : State) :
    (storePtes n s).mem startDir = s.mem startDir := by
  induction n with
  | zero => rfl
  | succ n ih =>
      rw [storePtes_succ, ← ih (by omega)]
      exact Function.update_of_ne (startTable_ne (by omega)).symm _ _

theorem storePtes_table (hn : n ≤ 16384) (s : State) (hpage : page < n) :
    (storePtes n s).mem (startTable (page / 1024)) (page % 1024) = startPte page := by
  induction n with
  | zero => exact absurd hpage (Nat.not_lt_zero page)
  | succ n ih =>
      rw [storePtes_succ]
      unfold storePte State.write State.setPage
      dsimp only
      by_cases hj : page / 1024 = n / 1024
      · rw [hj, Function.update_self]
        by_cases hi : page % 1024 = n % 1024
        · obtain rfl : page = n := by omega
          rw [Function.update_self]
          rfl
        · rw [Function.update_of_ne hi, ← hj]
          exact ih (by omega) (by omega)
      · have hne : startTable (page / 1024) ≠ startTable (n / 1024) :=
          fun h => hj (startTable_inj (by omega) (by omega) h)
        rw [Function.update_of_ne hne]
        exact ih (by omega) (by omega)

theorem startPaging_started (s : State) : Started (startPaging s) := by
  refine ⟨fun j hj => ?_, fun j hj => ?_, fun page hpage => ?_⟩
  · unfold startPaging
    rw [storePtes_dir (by omega), storePdes_dir (by omega), if_pos (by omega)]
  · unfold startPaging
    rw [storePtes_dir (by omega), storePdes_dir (by omega), if_neg (by omega), if_pos (by omega),
      Nat.add_sub_cancel_left]
  · unfold startPaging
    exact storePtes_table (by omega) _ hpage

/-- No page is taken from the allocator. -/
theorem startPaging_taken (s : State) : (startPaging s).taken = s.taken := by
  have hpdes : ∀ n, ∀ s : State, (storePdes n s).taken = s.taken := by
    intro n s
    induction n with
    | zero => rfl
    | succ n ih =>
        unfold storePdes at ih ⊢
        rw [List.range_succ, List.foldl_append, List.foldl_cons, List.foldl_nil]
        exact ih
  have hptes : ∀ n, ∀ s : State, (storePtes n s).taken = s.taken := by
    intro n s
    induction n with
    | zero => rfl
    | succ n ih =>
        rw [storePtes_succ]
        exact ih
  unfold startPaging
  rw [hptes, hpdes]
  rfl

theorem startPte_eq (h : page < 262144) :
    startPte page = BitVec.ofNat 32 (page * 4096) ||| 0x7#32 := by
  have hzero : BitVec.ofNat 32 (page * 4096) &&& 0x7#32 = 0 := by
    rw [← vaddrOf_sub]
    exact (page_vaddrOf h).flag (by decide)
  unfold startPte
  rw [BitVec.add_comm, Nat.mul_comm]
  exact BitVec.add_eq_or_of_and_eq_zero _ _ hzero

theorem startPde_facts : ∀ j < 16, addrOf (startPde j) = startTable j ∧
    startPde j &&& PTE_P ≠ 0 := by
  decide

/-- Both copies lead to the physical page. -/
theorem Started.mmu (h : Started s) (hpage : page < 16384)
    (hva : va.toNat = page * 4096 + va.toNat % 4096 ∨
      va.toNat = 0xc0000000 + page * 4096 + va.toNat % 4096) :
    (mmu s (startDir - PHYS_BASE) va).map Translation.paddr =
      some (BitVec.ofNat 32 (page * 4096) + pgOfs va) := by
  have hj : page / 1024 < 16 := by omega
  have hdir : s.mem startDir (pdNo va) = startPde (page / 1024) := by
    rw [pdNo_eq]
    rcases hva with hva | hva
    · have hd : va.toNat / 2 ^ 22 = page / 1024 := by omega
      rw [hd]
      exact h.low _ hj
    · have hd : va.toNat / 2 ^ 22 = 768 + page / 1024 := by omega
      rw [hd]
      exact h.high _ hj
  have hi : ptNo va = page % 1024 := by
    rw [ptNo_eq]
    omega
  have hself : addrOf (startDir - PHYS_BASE) = startDir := by decide
  obtain ⟨haddr, hpresent⟩ := startPde_facts _ hj
  have hpte := h.table page hpage
  have heq := @startPte_eq page (by omega)
  have hframe : startPte page &&& PTE_ADDR = BitVec.ofNat 32 (page * 4096) := by
    rw [heq, or_and_of_disjoint (by decide), ← vaddrOf_sub]
    exact (page_vaddrOf (by omega)).paddr.1
  have hone : startPte page &&& PTE_P ≠ 0 := by
    have hzero : BitVec.ofNat 32 (page * 4096) &&& PTE_P = 0 := by
      rw [← vaddrOf_sub]
      exact (page_vaddrOf (by omega)).flag (by decide)
    rw [heq, BitVec.and_or_distrib_right, hzero]
    decide
  unfold Paging.mmu
  dsimp only
  rw [hself, hdir, haddr, hi, hpte]
  rw [if_neg (not_or.mpr ⟨hpresent, hone⟩), Option.map_some, hframe]

end Start

/-! ### The loop of `paging_init` -/

/-- The pages that `paging_init` gets: `pd` first, and then the page tables. -/
structure Tables (pd : Word) (table : Nat → Word) (cnt : Nat) : Prop where
  first : Page pd
  page : ∀ j < cnt, Page (table j)
  inj : ∀ i < cnt, ∀ j < cnt, table i = table j → i = j
  apart : ∀ j < cnt, table j ≠ pd

/-- The loop has made `t` of the page tables and `n` entries. -/
structure Filled (start endKernelText pd : Word) (table : Nat → Word) (cnt : Nat) (s₀ : State)
    (t n : Nat) (m : Mapping) : Prop where
  pages : m.pages = (List.range' t (cnt - t)).map table
  pt : 0 < t → m.pt = table (t - 1)
  taken : m.s.taken = ((List.range t).map table).reverse ++ pd :: s₀.taken
  dir : ∀ d, m.s.mem pd d = if 768 ≤ d ∧ d < 768 + t then pde (table (d - 768)) else 0
  entry : ∀ j < t, ∀ i < 1024, m.s.mem (table j) i =
    if 1024 * j + i < n then kernelPte start endKernelText (1024 * j + i) else 0
  other : ∀ a, a ≠ pd → (∀ j < cnt, a ≠ table j) → m.s.mem a = s₀.mem a

section Loop

variable {start endKernelText pd : Word} {table : Nat → Word} {cnt t n : Nat} {s s₀ : State}
  {m : Mapping}

theorem mem_create_pd {a : Word} (d : Nat) (hne : a ≠ pd) :
    (s.create pd d a).mem pd = Function.update (s.mem pd) d (pde a) := by
  unfold State.create State.write State.takeZeroed State.setPage
  dsimp only
  rw [Function.update_self, Function.update_of_ne hne.symm]

theorem mem_create_table {a : Word} (d : Nat) (hne : a ≠ pd) :
    (s.create pd d a).mem a = fun _ => 0 := by
  unfold State.create State.write State.takeZeroed State.setPage
  dsimp only
  rw [Function.update_of_ne hne, Function.update_self]

theorem mem_create_other {a b : Word} (d : Nat) (hpd : b ≠ pd) (hne : b ≠ a) :
    (s.create pd d a).mem b = s.mem b := by
  unfold State.create State.write State.takeZeroed State.setPage
  dsimp only
  rw [Function.update_of_ne hpd, Function.update_of_ne hne]

/-- Another page table. The entries below it are zero since the page is, and no entry has been
made for it yet, because the entries are made in order. -/
theorem Filled.open (h : Filled start endKernelText pd table cnt s₀ t n m)
    (ht : Tables pd table cnt) (hn : n ≤ 1024 * t) (hlt : t < cnt) :
    ∃ m', pageTable pd (768 + t) m = .ok m' ∧
      Filled start endKernelText pd table cnt s₀ (t + 1) n m' := by
  have hzero : m.s.mem pd (768 + t) = 0 := by
    rw [h.dir, if_neg (by omega)]
  have hpages : m.pages = table t :: (List.range' (t + 1) (cnt - (t + 1))).map table := by
    have hrest : cnt - t = cnt - (t + 1) + 1 := by omega
    rw [h.pages, hrest, List.range'_succ, List.map_cons]
  have happart := ht.apart t hlt
  refine ⟨⟨table t, (List.range' (t + 1) (cnt - (t + 1))).map table,
    m.s.create pd (768 + t) (table t)⟩, ?_, rfl, fun _ => rfl, ?_, ?_, ?_, ?_⟩
  · unfold pageTable
    rw [if_pos hzero, hpages]
    dsimp only
    rw [(ht.page t hlt).pdeCreate]
    rfl
  · show table t :: m.s.taken = _
    rw [h.taken, List.range_succ, List.map_append, List.reverse_append]
    rfl
  · intro d
    dsimp only
    rw [mem_create_pd _ happart]
    by_cases hd : d = 768 + t
    · subst hd
      rw [Function.update_self, if_pos (by omega), Nat.add_sub_cancel_left]
    · rw [Function.update_of_ne hd, h.dir]
      by_cases hin : 768 ≤ d ∧ d < 768 + t
      · rw [if_pos hin, if_pos (by omega)]
      · rw [if_neg hin, if_neg (by omega)]
  · intro j hj i hi
    dsimp only
    by_cases hjt : j = t
    · subst hjt
      rw [mem_create_table _ happart, if_neg (by omega)]
    · have hne : table j ≠ table t := fun heq => hjt (ht.inj j (by omega) t hlt heq)
      rw [mem_create_other _ (ht.apart j (by omega)) hne]
      exact h.entry j (by omega) i hi
  · intro a hpd ha
    dsimp only
    rw [mem_create_other _ hpd (ha t hlt)]
    exact h.other a hpd ha

/-- Another entry. -/
theorem Filled.write (h : Filled start endKernelText pd table cnt s₀ (t + 1) n m)
    (ht : Tables pd table cnt) (hlo : 1024 * t ≤ n) (hhi : n < 1024 * (t + 1)) (hlt : t < cnt) :
    Filled start endKernelText pd table cnt s₀ (t + 1) (n + 1)
      { m with s := m.s.write m.pt (n % 1024) (kernelPte start endKernelText n) } := by
  have hpt : m.pt = table t := h.pt (Nat.succ_pos t)
  have hother : ∀ a, a ≠ table t → (m.s.write m.pt (n % 1024)
      (kernelPte start endKernelText n)).mem a = m.s.mem a := by
    intro a ha
    rw [hpt]
    exact Function.update_of_ne ha _ _
  refine ⟨h.pages, h.pt, h.taken, fun d => ?_, fun j hj i hi => ?_, fun a hpd ha => ?_⟩
  · dsimp only
    rw [hother pd (ht.apart t hlt).symm]
    exact h.dir d
  · dsimp only
    by_cases hjt : j = t
    · subst hjt
      have hself : (m.s.write m.pt (n % 1024) (kernelPte start endKernelText n)).mem (table j) =
          Function.update (m.s.mem (table j)) (n % 1024) (kernelPte start endKernelText n) := by
        rw [hpt]
        exact Function.update_self _ _ _
      rw [hself]
      by_cases hin : i = n % 1024
      · have heq : 1024 * j + i = n := by omega
        rw [heq, if_pos (Nat.lt_succ_self n), hin, Function.update_self]
      · rw [Function.update_of_ne hin, h.entry j hj i hi]
        have hiff : 1024 * j + i < n ↔ 1024 * j + i < n + 1 := by omega
        rw [if_congr hiff rfl rfl]
    · have hne : table j ≠ table t := fun heq => hjt (ht.inj j (by omega) t hlt heq)
      rw [hother _ hne, h.entry j hj i hi, if_pos (by omega), if_pos (by omega)]
  · dsimp only
    rw [hother a (ha t hlt)]
    exact h.other a hpd ha

/-- The step lemma: one pass of the loop. -/
theorem Filled.step (ht : Tables pd table cnt) (hn : n < 1024 * cnt) (hram : n < 262144)
    (h : Filled start endKernelText pd table cnt s₀ ((n + 1023) / 1024) n m) :
    ∃ m', mapPage start endKernelText pd m n = .ok m' ∧
      Filled start endKernelText pd table cnt s₀ ((n + 1 + 1023) / 1024) (n + 1) m' := by
  have hnext : (n + 1 + 1023) / 1024 = n / 1024 + 1 := by omega
  obtain ⟨m₁, htable, h₁⟩ : ∃ m₁, pageTable pd (768 + n / 1024) m = .ok m₁ ∧
      Filled start endKernelText pd table cnt s₀ (n / 1024 + 1) n m₁ := by
    by_cases hnew : n % 1024 = 0
    · have heq : (n + 1023) / 1024 = n / 1024 := by omega
      rw [heq] at h
      exact h.open ht (by omega) (by omega)
    · have heq : (n + 1023) / 1024 = n / 1024 + 1 := by omega
      rw [heq] at h
      have hdir : m.s.mem pd (768 + n / 1024) = pde (table (n / 1024)) := by
        rw [h.dir, if_pos (by omega), Nat.add_sub_cancel_left]
      refine ⟨m, ?_, h⟩
      unfold pageTable
      rw [hdir, if_neg (pde_ne_zero _)]
  refine ⟨_, ?_, hnext ▸ h₁.write ht (by omega) (by omega) (by omega)⟩
  unfold mapPage
  rw [ptov_page hram]
  show (pageTable pd (pdNo (vaddrOf n)) m >>= _) = _
  rw [pdNo_vaddrOf hram, htable, ok_bind, pteCreateKernel_page hram, ptNo_vaddrOf hram]
  rfl

/-- The run lemma, by induction on the pages. -/
theorem Filled.loop (ht : Tables pd table cnt)
    (h : Filled start endKernelText pd table cnt s₀ 0 0 m)
    (hn : n ≤ 1024 * cnt) (hram : n ≤ 262144) :
    ∃ m', (List.range n).foldlM (mapPage start endKernelText pd) m = .ok m' ∧
      Filled start endKernelText pd table cnt s₀ ((n + 1023) / 1024) n m' := by
  induction n with
  | zero => exact ⟨m, rfl, h⟩
  | succ n ih =>
      obtain ⟨m₁, hloop, h₁⟩ := ih (by omega) (by omega)
      obtain ⟨m₂, hstep, h₂⟩ := h₁.step ht (by omega) (by omega)
      refine ⟨m₂, ?_, h₂⟩
      rw [List.range_succ, List.foldlM_append, hloop, ok_bind, List.foldlM_cons, hstep, ok_bind]
      rfl

/-- `paging_init`, when there are enough pages. -/
theorem pagingInit_filled (ht : Tables pd table cnt) (hcnt : (n + 1023) / 1024 = cnt)
    (hram : n ≤ 262144) (s₀ : State) :
    ∃ m, pagingInit n start endKernelText (pd :: (List.range cnt).map table) s₀ =
        .ok (pd, pd - PHYS_BASE, m.s) ∧
      Filled start endKernelText pd table cnt s₀ cnt n m := by
  have hzero : Filled start endKernelText pd table cnt s₀ 0 0
      ⟨0, (List.range cnt).map table, s₀.takeZeroed pd⟩ := by
    refine ⟨?_, fun h => absurd h (Nat.lt_irrefl 0), rfl, fun d => ?_,
      fun j hj => absurd hj (Nat.not_lt_zero j), fun a ha _ => Function.update_of_ne ha _ _⟩
    · rw [List.range_eq_range', Nat.sub_zero]
    · have hself : (s₀.takeZeroed pd).mem pd = fun _ => 0 := Function.update_self _ _ _
      rw [if_neg (by omega)]
      exact congrFun hself d
  obtain ⟨m, hloop, h⟩ := hzero.loop (n := n) ht (by omega) hram
  rw [hcnt] at h
  refine ⟨m, ?_, h⟩
  unfold pagingInit
  dsimp only
  rw [hloop, ok_bind, ht.first.vtop]
  rfl

/-! ### The directory of the kernel -/

/-- The directory of the kernel is as `pagedir.c` expects it: nothing is mapped for user
addresses, and every entry has a page table of its own, which is in use. -/
theorem Filled.booted (h : Filled start endKernelText pd table cnt s₀ cnt n m)
    (ht : Tables pd table cnt) (hnone : s₀.taken = []) {userPool : Word → Bool}
    (hpd : userPool pd = false) (htable : ∀ j < cnt, userPool (table j) = false) :
    Booted ⟨pd, n, userPool⟩ m.s := by
  have htaken : ∀ a, a ∈ m.s.taken ↔ (∃ j < cnt, table j = a) ∨ a = pd := by
    intro a
    rw [h.taken, hnone, List.mem_append, List.mem_reverse, List.mem_map, List.mem_singleton]
    simp only [List.mem_range]
  have hentry : ∀ d, m.s.mem pd d ≠ 0 → 768 ≤ d ∧ d - 768 < cnt ∧
      m.s.mem pd d = pde (table (d - 768)) := by
    intro d hne
    rw [h.dir] at hne ⊢
    by_cases hin : 768 ≤ d ∧ d < 768 + cnt
    · rw [if_pos hin]
      exact ⟨hin.1, by omega, rfl⟩
    · rw [if_neg hin] at hne
      exact absurd rfl hne
  refine ⟨?_, fun a ha => ?_, (htaken pd).mpr (.inr rfl), fun d hd => ?_, fun d _ _ hne => ?_,
    fun d d' _ _ heq hne => ?_⟩
  · rw [h.taken, hnone]
    refine List.nodup_append.mpr ⟨List.nodup_reverse.mpr ?_, List.nodup_singleton pd,
      fun a ha b hb => ?_⟩
    · exact List.Nodup.map_on (fun i hi j hj heq => ht.inj i (List.mem_range.mp hi) j
        (List.mem_range.mp hj) heq) List.nodup_range
    · obtain ⟨j, hj, rfl⟩ := List.mem_map.mp (List.mem_reverse.mp ha)
      rw [List.mem_singleton.mp hb]
      exact ht.apart j (List.mem_range.mp hj)
  · rcases (htaken a).mp ha with ⟨j, hj, rfl⟩ | rfl
    · exact ⟨ht.page j hj, htable j hj⟩
    · exact ⟨ht.first, hpd⟩
  · show m.s.mem pd d = 0
    rw [h.dir, if_neg (by omega)]
  · obtain ⟨-, hlt, heq⟩ := hentry d hne
    exact ⟨table (d - 768), (htaken _).mpr (.inl ⟨_, hlt, rfl⟩), ht.apart _ hlt, heq⟩
  · obtain ⟨hge, hlt, hpde⟩ := hentry d hne
    obtain ⟨hge', hlt', hpde'⟩ := hentry d' (heq ▸ hne)
    have htables : table (d - 768) = table (d' - 768) :=
      (ht.page _ hlt).pde_inj (ht.page _ hlt') (hpde.symm.trans (heq.trans hpde'))
    have := ht.inj _ hlt _ hlt' htables
    omega

end Loop

/-- The address is one of memory's, at `PHYS_BASE`. -/
def inRam (initRamPages : Nat) (va : Word) : Bool :=
  decide (PHYS_BASE.toNat ≤ va.toNat ∧ va.toNat < PHYS_BASE.toNat + initRamPages * 4096)

/-- What the processor makes of the directory: exactly the addresses of memory at `PHYS_BASE`
are mapped, each one to its physical address. An entry below 768 is zero, one behind the
memory's end leads to no page table, or to one with a zero. -/
theorem Filled.mmu {start endKernelText pd va : Word} {table : Nat → Word} {cnt n : Nat}
    {s₀ : State} {m : Mapping} (h : Filled start endKernelText pd table cnt s₀ cnt n m)
    (ht : Tables pd table cnt) (hcnt : (n + 1023) / 1024 = cnt) :
    mmu m.s (pd - PHYS_BASE) va = if inRam n va then
      some ⟨va - PHYS_BASE, !inKernelText start endKernelText (va - pgOfs va), false⟩
    else none := by
  have hbase : PHYS_BASE.toNat = 0xc0000000 := rfl
  have hwalk : Paging.mmu m.s (pd - PHYS_BASE) va = (pte m.s pd va).bind (leaf va) := by
    refine mmu_eq_bind ht.first fun hne => ?_
    rw [h.dir] at hne ⊢
    by_cases hin : 768 ≤ pdNo va ∧ pdNo va < 768 + cnt
    · rw [if_pos hin]
      exact ⟨_, rfl⟩
    · rw [if_neg hin] at hne
      exact absurd rfl hne
  rw [hwalk]
  unfold pte inRam
  rw [hbase]
  rcases Nat.lt_or_ge (pdNo va) 768 with hlow | hhigh
  · have hout : ¬ (0xc0000000 ≤ va.toNat ∧ va.toNat < 0xc0000000 + n * 4096) := by
      rw [pdNo_eq] at hlow
      omega
    have hdir : m.s.mem pd (pdNo va) = 0 := by
      rw [h.dir, if_neg (by omega)]
    rw [hdir, if_pos rfl, decide_eq_false hout]
    rfl
  · obtain ⟨page, hpage, hva, hd, hi⟩ := exists_page hhigh
    rw [hd, hi]
    by_cases htable : page / 1024 < cnt
    · have hdir : m.s.mem pd (768 + page / 1024) = pde (table (page / 1024)) := by
        rw [h.dir, if_pos (by omega), Nat.add_sub_cancel_left]
      rw [hdir, if_neg (pde_ne_zero _), (ht.page _ htable).addrOf_pde, h.entry _ htable _ (by omega), Nat.div_add_mod,
        Option.bind_some]
      by_cases hin : page < n
      · have hram : 0xc0000000 ≤ va.toNat ∧ va.toNat < 0xc0000000 + n * 4096 := by omega
        rw [if_pos hin, decide_eq_true hram, if_pos rfl]
        exact leaf_kernelPte hpage hva
      · have hout : ¬ (0xc0000000 ≤ va.toNat ∧ va.toNat < 0xc0000000 + n * 4096) := by omega
        rw [if_neg hin, decide_eq_false hout]
        rfl
    · have hout : ¬ (0xc0000000 ≤ va.toNat ∧ va.toNat < 0xc0000000 + n * 4096) := by omega
      have hdir : m.s.mem pd (768 + page / 1024) = 0 := by
        rw [h.dir, if_neg (by omega)]
      rw [hdir, if_pos rfl, decide_eq_false hout]
      rfl

/-! ### From `palloc_init` on -/

section Boot

open OsTools.Threads

variable {m : Mem} {r : Ram} {initRamPages userPageLimit j cnt : Nat}

/-- A page of a pool, as a pointer. -/
def poolPage (p : Pool) (j : Nat) : Word := BitVec.ofNat 32 (p.page j)

theorem toNat_poolPage {p : Pool} (hp : p.Placed) (hj : j < p.usedMap.bitCnt) :
    (poolPage p j).toNat = p.base + 4096 * j := by
  have := hp.fits
  unfold poolPage Pool.page
  rw [BitVec.toNat_ofNat]
  omega

/-- The pages of the kernel pool are above the first megabyte, and none of the user pool's. -/
theorem kernelPool_apart (hhi : initRamPages ≤ 16384)
    (h : pallocInit m initRamPages userPageLimit = .ok r) (hj : j < r.kernelPool.usedMap.bitCnt) :
    0xc0100000 ≤ (poolPage r.kernelPool j).toNat ∧
      r.userPool.pageFromPool (poolPage r.kernelPool j).toNat = false := by
  obtain ⟨hp, hbase, -⟩ := pallocInit_spec hhi h
  have hpools : Palloc.Pools (Palloc.start Unit r) := (Palloc.pallocInit_start (by omega) h).1
  have hgap : r.kernelPool.base + 4096 * r.kernelPool.usedMap.bitCnt < r.userPool.base := hpools.gap
  have huser : r.userPool.base % 4096 = 0 := (hpools.placed true).aligned
  have haligned := hp.aligned
  rw [toNat_poolPage hp hj]
  unfold Vm.PHYS_BASE at hbase
  refine ⟨by omega, ?_⟩
  unfold Pool.pageFromPool Vm.pgNo Vm.PGSIZE
  rw [decide_eq_false_iff_not]
  omega

/-- The pages that `paging_init` gets are different pages of memory: a directory, and `cnt`
tables for it. -/
theorem kernelPool_tables (hhi : initRamPages ≤ 16384)
    (h : pallocInit m initRamPages userPageLimit = .ok r)
    (hcnt : cnt + 1 ≤ r.kernelPool.usedMap.bitCnt) :
    Tables (poolPage r.kernelPool 0) (fun j => poolPage r.kernelPool (j + 1)) cnt := by
  have hp := (pallocInit_spec hhi h).1
  have haligned := hp.aligned
  have hnat : ∀ j < r.kernelPool.usedMap.bitCnt,
      (poolPage r.kernelPool j).toNat = r.kernelPool.base + 4096 * j := fun j hj =>
    toNat_poolPage hp hj
  have hpage : ∀ j < r.kernelPool.usedMap.bitCnt, Page (poolPage r.kernelPool j) := by
    intro j hj
    have hhigh := (kernelPool_apart hhi h hj).1
    refine ⟨BitVec.eq_of_toNat_eq ?_, isKernelVaddr_iff.mpr ?_⟩
    · rw [toNat_pgOfs, hnat j hj]
      show _ = 0
      omega
    · rw [pdNo_eq]
      omega
  have hinj : ∀ i < r.kernelPool.usedMap.bitCnt, ∀ j < r.kernelPool.usedMap.bitCnt,
      poolPage r.kernelPool i = poolPage r.kernelPool j → i = j := by
    intro i hi j hj heq
    have := congrArg BitVec.toNat heq
    rw [hnat i hi, hnat j hj] at this
    omega
  refine ⟨hpage 0 (by omega), fun j hj => hpage _ (by omega), fun i hi j hj heq => ?_,
    fun j hj heq => ?_⟩
  · have := hinj _ (by omega) _ (by omega) heq
    omega
  · have := hinj _ (by omega) _ (by omega) heq
    omega

/-- **The kernel's address space.** On every machine of up to 64 MB, `paging_init` gets its pages
from the pool that `palloc_init` has just set up, and makes the directory that all processes
share: it maps exactly the memory there is, each page at `PHYS_BASE` plus its physical address,
for the kernel only, and the kernel's text read-only. As the directory of `start.S` agrees with
it, the code goes on when it is loaded into `cr3`. -/
theorem paging_init_maps (start endKernelText : Word) (s₀ : State) (hlo : 262 ≤ initRamPages)
    (hhi : initRamPages ≤ 16384) (hnone : s₀.taken = [])
    (h : pallocInit m initRamPages userPageLimit = .ok r) : ∃ r' pages pd cr3 s,
    pallocGetPages (1 + (initRamPages + 1023) / 1024) r = .ok (r', pages) ∧
    pagingInit initRamPages start endKernelText (pages.map (BitVec.ofNat 32)) (startPaging s₀) =
      .ok (pd, cr3, s) ∧
    Booted ⟨pd, initRamPages, fun a => r.userPool.pageFromPool a.toNat⟩ s ∧
    (∀ va, mmu s cr3 va = if inRam initRamPages va then
      some ⟨va - PHYS_BASE, !inKernelText start endKernelText (va - pgOfs va), false⟩ else none) ∧
    ∀ va, inRam initRamPages va = true →
      (mmu s (startDir - PHYS_BASE) va).map Translation.paddr =
        (mmu s cr3 va).map Translation.paddr := by
  obtain ⟨hp, -, -⟩ := pallocInit_spec hhi h
  obtain ⟨hfree, hbits⟩ := pallocInit_free (by omega) hhi h
  obtain ⟨cnt, hcnt⟩ : ∃ cnt, (initRamPages + 1023) / 1024 = cnt := ⟨_, rfl⟩
  have hroom : cnt + 1 ≤ r.kernelPool.usedMap.bitCnt := by omega
  have ht := kernelPool_tables hhi h hroom
  obtain ⟨r', hget⟩ := @pallocGetPages_eq r 0 (1 + cnt) hp (by omega) fun j hj => by
    rw [hbits j hj]
    rfl
  obtain ⟨f, hinit, hfilled⟩ := @pagingInit_filled start endKernelText _ _ cnt initRamPages ht hcnt
    (by omega) (startPaging s₀)
  have hpages : ((List.range' 0 (1 + cnt)).map r.kernelPool.page).map (BitVec.ofNat 32) =
      poolPage r.kernelPool 0 ::
        (List.range cnt).map fun j => poolPage r.kernelPool (j + 1) := by
    rw [← List.range_eq_range', Nat.add_comm, List.range_succ_eq_map, List.map_map, List.map_cons,
      List.map_map]
    rfl
  have hstarted := startPaging_started s₀
  -- the tables of `start.S` lie in the first megabyte
  have hkept : ∀ a : Word, a.toNat < 0xc0100000 → f.s.mem a = (startPaging s₀).mem a := by
    intro a ha
    refine hfilled.other a (fun heq => ?_) fun j hj heq => ?_
    · have := (kernelPool_apart hhi h (j := 0) (by omega)).1
      rw [heq] at ha
      omega
    · have := (kernelPool_apart hhi h (j := j + 1) (by omega)).1
      rw [heq] at ha
      omega
  have hstill : Started f.s := by
    have hdir := hkept startDir (by decide)
    refine ⟨fun j hj => ?_, fun j hj => ?_, fun page hpage => ?_⟩
    · rw [hdir]
      exact hstarted.low j hj
    · rw [hdir]
      exact hstarted.high j hj
    · rw [hkept _ (by rw [toNat_startTable (by omega)]; omega)]
      exact hstarted.table page hpage
  refine ⟨r', _, _, _, f.s, by rw [hcnt]; exact hget, by rw [hpages]; exact hinit,
    hfilled.booted ht (by rw [startPaging_taken, hnone]) (kernelPool_apart hhi h (by omega)).2
      fun j hj => (kernelPool_apart hhi h (by omega)).2, fun va => hfilled.mmu ht hcnt,
    fun va hva => ?_⟩
  rw [hfilled.mmu ht hcnt, if_pos hva, Option.map_some]
  have hbase : PHYS_BASE.toNat = 0xc0000000 := rfl
  unfold inRam at hva
  rw [decide_eq_true_iff, hbase] at hva
  obtain ⟨page, hpage, heq, -, -⟩ := @exists_page va (by rw [pdNo_eq]; omega)
  rw [@Started.mmu f.s va page hstill (by omega) (.inr heq), ← vaddrOf_sub, ← sub_pgOfs hpage heq]
  dsimp only
  congr 1
  bv_omega

theorem paging_init_maps_small : ∃ r r' pages pd cr3 s,
    pallocInit (fun _ => 0) 1024 8192 = .ok r ∧
    pallocGetPages 2 r = .ok (r', pages) ∧
    pagingInit 1024 0xc0020000#32 0xc0030000#32 (pages.map (BitVec.ofNat 32))
      (startPaging ⟨fun _ _ => 0, [], []⟩) = .ok (pd, cr3, s) ∧
    mmu s cr3 0xc0020123#32 = some ⟨0x20123#32, false, false⟩ ∧ mmu s cr3 0xc0400000#32 = none := by
  obtain ⟨r, hr⟩ := @pallocInit_ok (fun _ => 0) 1024 8192 (by decide) (by decide) (by decide)
  obtain ⟨r', pages, pd, cr3, s, hget, hinit, -, hmmu, -⟩ := paging_init_maps 0xc0020000#32
    0xc0030000#32 ⟨fun _ _ => 0, [], []⟩ (by decide) (by decide) rfl hr
  exact ⟨r, r', pages, pd, cr3, s, hr, hget, hinit, hmmu _, hmmu _⟩

end Boot

end OsTools.Paging

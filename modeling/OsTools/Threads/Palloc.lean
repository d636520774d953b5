import OsTools.Kernel.Bitmap
import OsTools.Vm.Vaddr
/-!
# OsTools.Threads.Palloc

The page allocator of `threads/palloc.c`: memory and its two pools of pages. The
map of a pool lies below its pages, where only the allocator writes, and is kept
apart from the memory here. Null is the address 0. Requests are served one at a
time, so that the locks of the pools are left out.

A pool is its map and the address of its first page. Everything is stated for a pool that is
placed in the address space (`Placed`), which makes the addresses of its pages a range
without a wrap around; `palloc_init` gets there with the sizes that the loader can report.
-/

namespace OsTools.Threads

open Kernel Vm

/-- `DIV_ROUND_UP`, as an expression of type `size_t`. -/
def divRoundUp (x step : Nat) : Nat := (x + step - 1) % 2 ^ 32 / step

/-- `enum palloc_flags`. -/
structure PallocFlags where
  assert : Bool := false
  zero : Bool := false
  user : Bool := false

/-- `struct pool`. -/
structure Pool where
  usedMap : Bitmap
  base : Nat

/-- Memory and the pools it is divided into. -/
structure Ram where
  mem : Mem
  kernelPool : Pool
  userPool : Pool

/-- `page_from_pool`. -/
def Pool.pageFromPool (pool : Pool) (page : Nat) : Bool :=
  let pageNo := pgNo page
  let startPage := pgNo pool.base
  let endPage := startPage + pool.usedMap.bitCnt
  pageNo ≥ startPage ∧ pageNo < endPage

namespace Ram

/-- The pool that `flags` ask for. -/
def pool (r : Ram) (flags : PallocFlags) : Pool := if flags.user then r.userPool else r.kernelPool

def setPool (r : Ram) (user : Bool) (pool : Pool) : Ram :=
  if user then { r with userPool := pool } else { r with kernelPool := pool }

/-- `palloc_get_multiple`. -/
def pallocGetMultiple (r : Ram) (flags : PallocFlags) (pageCnt : Nat) :
    Except Stop (Ram × Nat) := do
  let pool := r.pool flags
  if pageCnt = 0 then .ok (r, 0)
  else
    let (usedMap, pageIdx) ← pool.usedMap.scanAndFlip 0 pageCnt false
    let r := r.setPool flags.user { pool with usedMap }
    let pages := match pageIdx with
      | some pageIdx => pool.base + PGSIZE * pageIdx
      | none => 0
    if pages ≠ 0 then
      if flags.zero then .ok ({ r with mem := r.mem.fill pages (PGSIZE * pageCnt % 2 ^ 32) 0 }, pages)
      else .ok (r, pages)
    else if flags.assert then .error .panic else .ok (r, pages)

/-- The pool a page is from. -/
def owner (r : Ram) (page : Nat) : Except Stop Bool :=
  if r.kernelPool.pageFromPool page then .ok false
  else if r.userPool.pageFromPool page then .ok true
  else .error .panic

/-- `palloc_free_multiple`. -/
def pallocFreeMultiple (r : Ram) (pages pageCnt : Nat) : Except Stop Ram :=
  if pgOfs pages ≠ 0 then .error .assertion
  else if pages = 0 ∨ pageCnt = 0 then .ok r
  else do
    let user ← r.owner pages
    let pool := r.pool { user }
    let pageIdx := pgNo pages - pgNo pool.base
    let r := { r with mem := r.mem.fill pages (PGSIZE * pageCnt % 2 ^ 32) 0xcc }
    if ← pool.usedMap.all pageIdx pageCnt then
      let usedMap ← pool.usedMap.setMultiple pageIdx pageCnt false
      .ok (r.setPool user { pool with usedMap })
    else .error .assertion

end Ram

/-! ### Start-up -/

/-- `bitmap_buf_size`. -/
def bitmapBufSize (bitCnt : Nat) : Nat := 8 + byteCnt bitCnt

/-- `bitmap_create_in_buf`, in a block of `blockSize` bytes at `block`. -/
def bitmapCreateInBuf (m : Mem) (bitCnt block blockSize : Nat) : Except Stop Bitmap :=
  if blockSize ≥ bitmapBufSize bitCnt then
    Bitmap.setAll ⟨bitCnt, fun i => m (block + 8 + i)⟩ false
  else .error .assertion

/-- `init_pool`. -/
def initPool (m : Mem) (base pageCnt : Nat) : Except Stop Pool :=
  let bmPages := divRoundUp (bitmapBufSize pageCnt) PGSIZE
  if bmPages > pageCnt then .error .panic
  else do
    let usedMap ← bitmapCreateInBuf m (pageCnt - bmPages) base (bmPages * PGSIZE)
    .ok ⟨usedMap, base + bmPages * PGSIZE⟩

/-- `ptov`. -/
def ptov (paddr : Nat) : Except Stop Nat :=
  if paddr < PHYS_BASE then .ok (paddr + PHYS_BASE) else .error .assertion

/-- `palloc_init`, on a machine with `initRamPages` pages of memory. -/
def pallocInit (m : Mem) (initRamPages userPageLimit : Nat) : Except Stop Ram := do
  let freeStart ← ptov (1024 * 1024)
  let freeEnd ← ptov (initRamPages * PGSIZE)
  let freePages := (freeEnd - freeStart) / PGSIZE
  let userPages := if freePages / 2 > userPageLimit then userPageLimit else freePages / 2
  let kernelPages := freePages - userPages
  let kernelPool ← initPool m freeStart kernelPages
  let userPool ← initPool m (freeStart + kernelPages * PGSIZE) userPages
  .ok ⟨m, kernelPool, userPool⟩

/-! ### The pages of a pool -/

namespace Pool

/-- A pool of whole pages in the address space. -/
structure Placed (p : Pool) : Prop where
  aligned : p.base % 4096 = 0
  pos : 0 < p.base
  fits : p.base + 4096 * p.usedMap.bitCnt ≤ 2 ^ 32

/-- The address of page number `i` of the pool. -/
def page (p : Pool) (i : Nat) : Nat := p.base + 4096 * i

variable {p : Pool}

theorem Placed.bitmap (hp : p.Placed) : p.usedMap.bitCnt < 2 ^ 32 := by
  have := hp.fits
  omega

theorem Placed.page_aligned (hp : p.Placed) (i : Nat) : p.page i % 4096 = 0 := by
  have := hp.aligned
  unfold page
  omega

theorem Placed.pageFromPool (hp : p.Placed) {i : Nat} (hi : i < p.usedMap.bitCnt) :
    p.pageFromPool (p.page i) = true := by
  have := hp.aligned
  unfold Pool.pageFromPool page pgNo PGSIZE
  rw [decide_eq_true_iff]
  omega

end Pool

variable {r : Ram} {i cnt : Nat}

/-- `palloc_get_multiple (0, cnt)`. -/
theorem Ram.pallocGetMultiple_spec (hp : r.kernelPool.Placed) (hcnt : 0 < cnt) :
    ∃ r' pages, r.pallocGetMultiple {} cnt = .ok (r', pages) ∧ r'.mem = r.mem ∧
      r'.userPool = r.userPool ∧ r'.kernelPool.base = r.kernelPool.base ∧
      r'.kernelPool.usedMap.bitCnt = r.kernelPool.usedMap.bitCnt ∧
      (pages = 0 ∧ r' = r ∨ ∃ i, pages = r.kernelPool.page i ∧
        i + cnt ≤ r.kernelPool.usedMap.bitCnt ∧ r.kernelPool.usedMap.Group i cnt false ∧
        ∀ j, r'.kernelPool.usedMap.bit j =
          if i ≤ j ∧ j < i + cnt then true else r.kernelPool.usedMap.bit j) := by
  obtain ⟨b, idx, hscan, hbits, hnone, hsome⟩ := Bitmap.scanAndFlip_spec hp.bitmap cnt
  unfold pallocGetMultiple
  rw [if_neg (by omega)]
  show ∃ r' pages, (r.kernelPool.usedMap.scanAndFlip 0 cnt false >>= _) = _ ∧ _
  rw [hscan, ok_bind]
  cases idx with
  | none =>
      obtain ⟨rfl, -⟩ := hnone rfl
      exact ⟨r, 0, rfl, rfl, rfl, rfl, rfl, Or.inl ⟨rfl, rfl⟩⟩
  | some i =>
      obtain ⟨hfirst, hbit⟩ := hsome i rfl
      have hpos := hp.pos
      refine ⟨{ r with kernelPool := { r.kernelPool with usedMap := b } }, r.kernelPool.page i, ?_,
        rfl, rfl, rfl, hbits, Or.inr ⟨i, rfl, hfirst.le, hfirst.group, hbit⟩⟩
      show (if r.kernelPool.page i ≠ 0 then _ else _) = _
      rw [if_pos (by unfold Pool.page; omega)]
      rfl

/-- `palloc_free_multiple`, of pages of the kernel pool that are in use. -/
theorem Ram.pallocFreeMultiple_spec (hp : r.kernelPool.Placed) (hcnt : 0 < cnt)
    (hi : i + cnt ≤ r.kernelPool.usedMap.bitCnt)
    (hused : ∀ j, i ≤ j → j < i + cnt → r.kernelPool.usedMap.bit j = true) :
    ∃ r', r.pallocFreeMultiple (r.kernelPool.page i) cnt = .ok r' ∧
      r'.mem = r.mem.fill (r.kernelPool.page i) (4096 * cnt) 0xcc ∧
      r'.userPool = r.userPool ∧ r'.kernelPool.base = r.kernelPool.base ∧
      r'.kernelPool.usedMap.bitCnt = r.kernelPool.usedMap.bitCnt ∧
      ∀ j, r'.kernelPool.usedMap.bit j =
        if i ≤ j ∧ j < i + cnt then false else r.kernelPool.usedMap.bit j := by
  obtain ⟨b, hset, hbits, hbit⟩ := Bitmap.setMultiple_spec hp.bitmap hi false
  have hofs : pgOfs (r.kernelPool.page i) = 0 := hp.page_aligned i
  have hnonnull : ¬ (r.kernelPool.page i = 0 ∨ cnt = 0) := by
    have := hp.pos
    unfold Pool.page
    omega
  have hidx : pgNo (r.kernelPool.page i) - pgNo r.kernelPool.base = i := by
    have := hp.aligned
    unfold Pool.page pgNo PGSIZE
    omega
  have hsize : PGSIZE * cnt % 2 ^ 32 = 4096 * cnt := by
    have := hp.fits
    have := hp.pos
    unfold PGSIZE
    omega
  refine ⟨⟨r.mem.fill (r.kernelPool.page i) (4096 * cnt) 0xcc, ⟨b, r.kernelPool.base⟩, r.userPool⟩,
    ?_, rfl, rfl, rfl, hbits, hbit⟩
  unfold pallocFreeMultiple owner
  rw [if_neg (not_not.mpr hofs), if_neg hnonnull, if_pos (hp.pageFromPool (by omega)), ok_bind]
  show (r.kernelPool.usedMap.all (pgNo (r.kernelPool.page i) - pgNo r.kernelPool.base) cnt >>= _) = _
  rw [hidx, Bitmap.all_eq_true hp.bitmap hi hused, ok_bind, if_pos rfl]
  show (r.kernelPool.usedMap.setMultiple (pgNo (r.kernelPool.page i) - pgNo r.kernelPool.base) cnt
    false >>= _) = _
  rw [hidx, hset, ok_bind, hsize]
  rfl

/-- A pool of few enough pages, once it is set up. -/
theorem initPool_spec {m : Mem} {base pageCnt : Nat} {p : Pool} (hbase : base % 4096 = 0)
    (hpos : 0 < base) (hcnt : base + 4096 * pageCnt ≤ 2 ^ 32) (h : initPool m base pageCnt = .ok p) :
    p.Placed ∧ base ≤ p.base ∧ p.base + 4096 * p.usedMap.bitCnt = base + 4096 * pageCnt := by
  unfold initPool bitmapCreateInBuf at h
  dsimp only at h
  generalize hbm : divRoundUp (bitmapBufSize pageCnt) PGSIZE = bmPages at h
  by_cases hfew : bmPages > pageCnt
  · rw [if_pos hfew] at h
    cases h
  · rw [if_neg hfew] at h
    obtain ⟨b, hcreate, hp⟩ := bind_eq_ok h
    by_cases hroom : bmPages * PGSIZE ≥ bitmapBufSize (pageCnt - bmPages)
    · rw [if_pos hroom] at hcreate
      obtain ⟨b', hset, hbits, -⟩ := @Bitmap.setMultiple_spec
        ⟨pageCnt - bmPages, fun i => m (base + 8 + i)⟩ (by dsimp only; omega)
        0 (pageCnt - bmPages) (by dsimp only; omega) false
      have hb : b' = b := Except.ok.inj (hset.symm.trans hcreate)
      cases hp
      rw [hb] at hbits
      unfold PGSIZE
      refine ⟨⟨?_, ?_, ?_⟩, ?_, ?_⟩ <;> dsimp only at hbits ⊢ <;> omega
    · rw [if_neg hroom] at hcreate
      cases hcreate

/-- The map of a pool of up to 64 MB takes one page. -/
theorem initPool_ok {m : Mem} {base pageCnt : Nat} (hpos : 0 < pageCnt) (hcnt : pageCnt ≤ 16384) :
    ∃ p, initPool m base pageCnt = .ok p := by
  have hbm : divRoundUp (bitmapBufSize pageCnt) PGSIZE = 1 := by
    unfold divRoundUp bitmapBufSize byteCnt elemCnt ELEM_BITS PGSIZE
    omega
  have hroom : bitmapBufSize (pageCnt - 1) ≤ 1 * PGSIZE := by
    unfold bitmapBufSize byteCnt elemCnt ELEM_BITS PGSIZE
    omega
  obtain ⟨b, hset, -⟩ := @Bitmap.setMultiple_spec ⟨pageCnt - 1, fun i => m (base + 8 + i)⟩
    (by dsimp only; omega) 0 (pageCnt - 1) (by dsimp only; omega) false
  have hset : Bitmap.setAll ⟨pageCnt - 1, fun i => m (base + 8 + i)⟩ false = .ok b := hset
  unfold initPool bitmapCreateInBuf
  rw [hbm]
  dsimp only
  rw [if_neg (by omega), if_pos hroom, hset]
  exact ⟨_, rfl⟩

/-- All its other pages are free at first. -/
theorem initPool_free {m : Mem} {base pageCnt : Nat} {p : Pool} (hpos : 0 < pageCnt)
    (hcnt : pageCnt ≤ 16384) (h : initPool m base pageCnt = .ok p) :
    p.usedMap.bitCnt = pageCnt - 1 ∧ ∀ i, i < pageCnt - 1 → p.usedMap.bit i = false := by
  have hbm : divRoundUp (bitmapBufSize pageCnt) PGSIZE = 1 := by
    unfold divRoundUp bitmapBufSize byteCnt elemCnt ELEM_BITS PGSIZE
    omega
  obtain ⟨b, hset, hbits, hbit⟩ := @Bitmap.setMultiple_spec
    ⟨pageCnt - 1, fun i => m (base + 8 + i)⟩ (by dsimp only; omega) 0 (pageCnt - 1)
    (by dsimp only; omega) false
  have hset : Bitmap.setAll ⟨pageCnt - 1, fun i => m (base + 8 + i)⟩ false = .ok b := hset
  unfold initPool bitmapCreateInBuf at h
  rw [hbm] at h
  dsimp only at h
  have hroom : 1 * PGSIZE ≥ bitmapBufSize (pageCnt - 1) := by
    unfold bitmapBufSize byteCnt elemCnt ELEM_BITS PGSIZE
    omega
  rw [if_neg (by omega), if_pos hroom, hset, ok_bind] at h
  cases h
  refine ⟨hbits, fun i hi => ?_⟩
  rw [hbit i, if_pos (by omega)]

/-- Two pages above the first megabyte are enough. -/
theorem pallocInit_ok {m : Mem} {initRamPages userPageLimit : Nat} (hlo : 258 ≤ initRamPages)
    (hhi : initRamPages ≤ 16384) (hlimit : 0 < userPageLimit) :
    ∃ r, pallocInit m initRamPages userPageLimit = .ok r := by
  unfold pallocInit ptov
  rw [if_pos (by decide), ok_bind, if_pos (by unfold PGSIZE PHYS_BASE; omega), ok_bind]
  have hfree : (initRamPages * PGSIZE + PHYS_BASE - (1024 * 1024 + PHYS_BASE)) / PGSIZE =
      initRamPages - 256 := by
    unfold PGSIZE PHYS_BASE
    omega
  rw [hfree]
  dsimp only
  obtain ⟨userPages, huser⟩ : ∃ userPages, (if (initRamPages - 256) / 2 > userPageLimit then
      userPageLimit else (initRamPages - 256) / 2) = userPages := ⟨_, rfl⟩
  have hsome : 0 < userPages ∧ userPages ≤ (initRamPages - 256) / 2 := by
    rw [← huser]
    split_ifs <;> omega
  rw [huser]
  obtain ⟨kernelPool, hk⟩ := @initPool_ok m (1024 * 1024 + PHYS_BASE)
    (initRamPages - 256 - userPages) (by omega) (by omega)
  obtain ⟨userPool, hu⟩ := @initPool_ok m
    (1024 * 1024 + PHYS_BASE + (initRamPages - 256 - userPages) * PGSIZE) userPages (by omega)
    (by omega)
  rw [hk, ok_bind, hu]
  exact ⟨_, rfl⟩

/-- The kernel pool after `palloc_init`: it lies above the first megabyte. -/
theorem pallocInit_spec {m : Mem} {initRamPages userPageLimit : Nat}
    (hram : initRamPages ≤ 16384) (h : pallocInit m initRamPages userPageLimit = .ok r) :
    r.kernelPool.Placed ∧ PHYS_BASE + 1024 * 1024 ≤ r.kernelPool.base ∧ r.mem = m := by
  unfold pallocInit ptov at h
  rw [if_pos (by decide), ok_bind, if_pos (by unfold PGSIZE PHYS_BASE; omega), ok_bind] at h
  dsimp only at h
  obtain ⟨kp, hk, h⟩ := bind_eq_ok h
  obtain ⟨up, -, h⟩ := bind_eq_ok h
  cases h
  obtain ⟨hplaced, hbase, -⟩ := initPool_spec (by decide) (by decide)
    (by unfold PGSIZE PHYS_BASE; omega) hk
  refine ⟨hplaced, ?_, rfl⟩
  rw [Nat.add_comm PHYS_BASE]
  exact hbase

/-- At least half of the pages above the first megabyte are of the kernel pool, and free but for
the one with its map. -/
theorem pallocInit_free {m : Mem} {initRamPages userPageLimit : Nat} (hlo : 258 ≤ initRamPages)
    (hhi : initRamPages ≤ 16384) (h : pallocInit m initRamPages userPageLimit = .ok r) :
    (initRamPages - 256) / 2 ≤ r.kernelPool.usedMap.bitCnt + 1 ∧
      ∀ i, i < r.kernelPool.usedMap.bitCnt → r.kernelPool.usedMap.bit i = false := by
  unfold pallocInit ptov at h
  rw [if_pos (by decide), ok_bind, if_pos (by unfold PGSIZE PHYS_BASE; omega), ok_bind] at h
  have hfree : (initRamPages * PGSIZE + PHYS_BASE - (1024 * 1024 + PHYS_BASE)) / PGSIZE =
      initRamPages - 256 := by
    unfold PGSIZE PHYS_BASE
    omega
  rw [hfree] at h
  dsimp only at h
  obtain ⟨userPages, huser⟩ : ∃ userPages, (if (initRamPages - 256) / 2 > userPageLimit then
      userPageLimit else (initRamPages - 256) / 2) = userPages := ⟨_, rfl⟩
  have hsome : userPages ≤ (initRamPages - 256) / 2 := by
    rw [← huser]
    split_ifs <;> omega
  rw [huser] at h
  obtain ⟨kp, hk, h⟩ := bind_eq_ok h
  obtain ⟨up, -, h⟩ := bind_eq_ok h
  cases h
  obtain ⟨hcnt, hbit⟩ := initPool_free (by omega) (by omega) hk
  dsimp only
  rw [hcnt]
  exact ⟨by omega, hbit⟩

end OsTools.Threads

import OsTools.Lib.Except
import OsTools.Lib.Mask
/-!
# OsTools.Paging.Pte

The entries of page directories and page tables (`threads/pte.h`), with the address of a
page and flags in one word, and the parts of a virtual address (`threads/vaddr.h`).

A failed `ASSERT` is an error.

An address of a page has zeros where the flags of an entry are, and physical addresses are
below `PHYS_BASE`. With these two facts an entry is a pair of an address and flags
(`Page.paddr`, `Page.flag`), and two entries for different pages differ (`Page.pde_inj`).
The modules above use the entries through these lemmas alone.
-/

namespace OsTools.Paging

/-- An address, or an entry. -/
abbrev Word := BitVec 32

/-- The assertions. -/
inductive Panic
  | null
  | unaligned
  | notUser
  | notKernel
  | notPhysical
  | notRam
  | initPageDir
  | notPresent
  | present
  deriving DecidableEq

def PHYS_BASE : Word := 0xc0000000#32
def PGMASK : Word := 0xfff#32
def PTMASK : Word := 0x3ff000#32
def PTE_ADDR : Word := 0xfffff000#32
def PTE_P : Word := 0x1#32
def PTE_W : Word := 0x2#32
def PTE_U : Word := 0x4#32
def PTE_A : Word := 0x20#32
def PTE_D : Word := 0x40#32

/-! ### Virtual addresses -/

def pgOfs (va : Word) : Word := va &&& PGMASK
def pgNo (va : Word) : Nat := (va >>> 12).toNat
def ptNo (va : Word) : Nat := ((va &&& PTMASK) >>> 12).toNat
def pdNo (va : Word) : Nat := (va >>> 22).toNat
def isUserVaddr (va : Word) : Bool := decide (va < PHYS_BASE)
def isKernelVaddr (va : Word) : Bool := decide (PHYS_BASE ≤ va)

/-- `ptov`. -/
def ptov (paddr : Word) : Except Panic Word :=
  if paddr < PHYS_BASE then .ok (paddr + PHYS_BASE) else .error .notPhysical

/-- `vtop`. -/
def vtop (vaddr : Word) : Except Panic Word :=
  if isKernelVaddr vaddr then .ok (vaddr - PHYS_BASE) else .error .notKernel

/-! ### Entries -/

/-- `pde_create`. -/
def pdeCreate (pt : Word) : Except Panic Word :=
  if pgOfs pt ≠ 0 then .error .unaligned
  else do
    let paddr ← vtop pt
    .ok (paddr ||| PTE_U ||| PTE_P ||| PTE_W)

/-- `pde_get_pt`. -/
def pdeGetPt (pde : Word) : Except Panic Word :=
  if pde &&& PTE_P = 0 then .error .notPresent else ptov (pde &&& PTE_ADDR)

/-- `pte_create_kernel`. -/
def pteCreateKernel (page : Word) (writable : Bool) : Except Panic Word :=
  if pgOfs page ≠ 0 then .error .unaligned
  else do
    let paddr ← vtop page
    .ok (paddr ||| PTE_P ||| if writable then PTE_W else 0)

/-- `pte_create_user`. -/
def pteCreateUser (page : Word) (writable : Bool) : Except Panic Word := do
  let pte ← pteCreateKernel page writable
  .ok (pte ||| PTE_U)

/-- `pte_get_page`. -/
def pteGetPage (pte : Word) : Except Panic Word := ptov (pte &&& PTE_ADDR)

/-! ### The parts of an address -/

section Address

variable {va va' : Word}

theorem pgNo_eq (va : Word) : pgNo va = va.toNat / 2 ^ 12 := toNat_shift 12

theorem pdNo_eq (va : Word) : pdNo va = va.toNat / 2 ^ 22 := toNat_shift 22

theorem ptNo_eq (va : Word) : ptNo va = va.toNat / 2 ^ 12 % 2 ^ 10 := toNat_field 10 12 rfl

theorem toNat_pgOfs (va : Word) : (pgOfs va).toNat = va.toNat % 2 ^ 12 := toNat_and_low 12 rfl

theorem pdNo_lt (va : Word) : pdNo va < 1024 := by
  rw [pdNo_eq]
  have := va.isLt
  omega

theorem ptNo_lt (va : Word) : ptNo va < 1024 := by
  rw [ptNo_eq]
  omega

/-- The two indices are the page number. -/
theorem pgNo_eq_iff : pgNo va = pgNo va' ↔ pdNo va = pdNo va' ∧ ptNo va = ptNo va' := by
  rw [pgNo_eq, pgNo_eq, pdNo_eq, pdNo_eq, ptNo_eq, ptNo_eq]
  omega

theorem isUserVaddr_iff : isUserVaddr va = true ↔ pdNo va < 768 := by
  unfold isUserVaddr
  rw [decide_eq_true_iff, BitVec.lt_def, pdNo_eq]
  have hbase : PHYS_BASE.toNat = 768 * 2 ^ 22 := rfl
  rw [hbase]
  omega

theorem isKernelVaddr_iff : isKernelVaddr va = true ↔ 768 ≤ pdNo va := by
  unfold isKernelVaddr
  rw [decide_eq_true_iff, BitVec.le_def, pdNo_eq]
  have hbase : PHYS_BASE.toNat = 768 * 2 ^ 22 := rfl
  rw [hbase]
  omega

/-- There is an address for two indices. -/
theorem exists_va {d i : Nat} (hd : d < 1024) (hi : i < 1024) : ∃ va, pdNo va = d ∧ ptNo va = i := by
  refine ⟨BitVec.ofNat 32 (d * 2 ^ 22 + i * 2 ^ 12), ?_, ?_⟩
  · rw [pdNo_eq, BitVec.toNat_ofNat]
    omega
  · rw [ptNo_eq, BitVec.toNat_ofNat]
    omega

end Address

/-! ### The parts of an entry -/

/-- The kernel address of a page. -/
structure Page (a : Word) : Prop where
  aligned : pgOfs a = 0
  kernel : isKernelVaddr a = true

/-- The entry that is made for the page table `pt`. -/
def pde (pt : Word) : Word := (pt - PHYS_BASE) ||| PTE_U ||| PTE_P ||| PTE_W

/-- The page that the address bits stand for. -/
def addrOf (w : Word) : Word := (w &&& PTE_ADDR) + PHYS_BASE

section Entry

variable {a w : Word} {writable : Bool}

theorem Page.vtop (h : Page a) : vtop a = .ok (a - PHYS_BASE) := by
  unfold Paging.vtop
  rw [if_pos h.kernel]

/-- The physical address of a page has no flag bits, and is below the kernel's addresses. -/
theorem Page.paddr (h : Page a) : (a - PHYS_BASE) &&& PTE_ADDR = a - PHYS_BASE ∧
    a - PHYS_BASE < PHYS_BASE := by
  have hkernel := isKernelVaddr_iff.mp h.kernel
  have hofs := toNat_pgOfs a
  rw [h.aligned] at hofs
  rw [pdNo_eq] at hkernel
  have hbase : PHYS_BASE.toNat = 768 * 2 ^ 22 := rfl
  have hlt := a.isLt
  have hsub : (a - PHYS_BASE).toNat = a.toNat - 768 * 2 ^ 22 := by
    rw [BitVec.toNat_sub, hbase]
    omega
  constructor
  · refine and_eq_self (m := PGMASK) rfl ?_
    refine BitVec.eq_of_toNat_eq ?_
    rw [toNat_and_low 12 rfl, hsub]
    have hzero : (0#32).toNat = 0 := rfl
    change 0 = _ at hofs
    rw [hzero]
    omega
  · rw [BitVec.lt_def, hsub, hbase]
    omega

/-- Whatever flags are added to it. -/
theorem Page.addr (h : Page a) {m : Word} (hm : m &&& PTE_ADDR = 0) :
    ((a - PHYS_BASE) ||| m) &&& PTE_ADDR = a - PHYS_BASE := by
  rw [or_and_of_disjoint hm]
  exact h.paddr.1

theorem ptov_of_addr (h : Page a) (hw : w &&& PTE_ADDR = a - PHYS_BASE) :
    ptov (w &&& PTE_ADDR) = .ok a := by
  unfold ptov
  rw [hw, if_pos h.paddr.2, BitVec.sub_add_cancel]

theorem Page.pdeCreate (h : Page a) : pdeCreate a = .ok (pde a) := by
  unfold Paging.pdeCreate
  rw [if_neg (by rw [h.aligned]; decide), h.vtop]
  rfl

theorem pde_present (a : Word) : pde a &&& PTE_P = PTE_P := by
  unfold pde
  rw [or_and_of_disjoint (by decide), or_and_mask]

theorem pde_ne_zero (a : Word) : pde a ≠ 0 := by
  intro hzero
  have hpresent := pde_present a
  rw [hzero] at hpresent
  exact absurd hpresent (by decide)

theorem Page.pde_addr (h : Page a) : pde a &&& PTE_ADDR = a - PHYS_BASE := by
  unfold pde
  rw [or_and_of_disjoint (by decide), or_and_of_disjoint (by decide)]
  exact h.addr (by decide)

theorem Page.pdeGetPt (h : Page a) : pdeGetPt (pde a) = .ok a := by
  unfold Paging.pdeGetPt
  rw [pde_present, if_neg (by decide)]
  exact ptov_of_addr h h.pde_addr

theorem Page.addrOf_pde (h : Page a) : addrOf (pde a) = a := by
  unfold addrOf
  rw [h.pde_addr, BitVec.sub_add_cancel]

/-- Page tables are told apart by their entries. -/
theorem Page.pde_inj {b : Word} (ha : Page a) (hb : Page b) (h : pde a = pde b) : a = b := by
  rw [← ha.addrOf_pde, h, hb.addrOf_pde]

/-- A physical address of a page has no bits in the flags. -/
theorem Page.flag (h : Page a) {m : Word} (hm : PTE_ADDR &&& m = 0) :
    (a - PHYS_BASE) &&& m = 0 := by
  rw [← h.paddr.1, BitVec.and_assoc, hm]
  exact BitVec.and_zero

/-- The entry for a frame: present, for this frame, neither accessed nor dirty. -/
theorem Page.pteCreateUser (h : Page a) (writable : Bool) :
    ∃ w, pteCreateUser a writable = .ok w ∧ w &&& PTE_P = PTE_P ∧
      w &&& PTE_ADDR = a - PHYS_BASE ∧ w &&& PTE_A = 0 ∧ w &&& PTE_D = 0 := by
  have hkernel : pteCreateKernel a writable =
      .ok ((a - PHYS_BASE) ||| PTE_P ||| if writable then PTE_W else 0) := by
    unfold pteCreateKernel
    rw [if_neg (by rw [h.aligned]; decide), h.vtop]
    rfl
  refine ⟨_, by unfold Paging.pteCreateUser; rw [hkernel, ok_bind], ?_, ?_, ?_, ?_⟩
  · rw [or_and_of_disjoint (by decide), or_and_of_disjoint (by cases writable <;> decide),
      or_and_mask]
  · rw [or_and_of_disjoint (by decide), or_and_of_disjoint (by cases writable <;> decide)]
    exact h.addr (by decide)
  · rw [or_and_of_disjoint (by decide), or_and_of_disjoint (by cases writable <;> decide),
      or_and_of_disjoint (by decide)]
    exact h.flag (by decide)
  · rw [or_and_of_disjoint (by decide), or_and_of_disjoint (by cases writable <;> decide),
      or_and_of_disjoint (by decide)]
    exact h.flag (by decide)

end Entry

end OsTools.Paging

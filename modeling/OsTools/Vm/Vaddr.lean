import OsTools.Lib.Word
/-!
# OsTools.Vm.Vaddr

Virtual addresses of a 32-bit machine (`threads/vaddr.h`). An address is a
number below `2 ^ 32`.
-/

namespace OsTools.Vm

def PGSIZE : Nat := 4096

/-- End of the user address space. -/
def PHYS_BASE : Nat := 0xc0000000

/-- The number of user pages. -/
def userPages : Nat := PHYS_BASE / PGSIZE

def pgOfs (va : Nat) : Nat := va % PGSIZE
def pgNo (va : Nat) : Nat := va / PGSIZE
def pgRoundDown (va : Nat) : Nat := va / PGSIZE * PGSIZE
def pgRoundUp (va : Nat) : Nat := pgRoundDown (add32 va (PGSIZE - 1 : Nat))
def isUserVaddr (va : Nat) : Bool := decide (va < PHYS_BASE)

/-- The address at which page `p` starts. -/
def pageAddr (p : Nat) : Nat := p * PGSIZE

variable {a b p : Nat}

@[simp] theorem pgOfs_pageAddr : pgOfs (pageAddr p) = 0 := by
  unfold pgOfs pageAddr
  exact Nat.mul_mod_left p PGSIZE

@[simp] theorem pgNo_pageAddr : pgNo (pageAddr p) = p := by
  unfold pgNo pageAddr PGSIZE
  omega

theorem pgRoundDown_eq : pgRoundDown a = pageAddr (pgNo a) := rfl

theorem pageAddr_pgNo (h : pgOfs a = 0) : pageAddr (pgNo a) = a := by
  unfold pgOfs at h
  unfold pageAddr pgNo PGSIZE at *
  omega

theorem pgNo_le (h : a ≤ b) : pgNo a ≤ pgNo b := Nat.div_le_div_right h

theorem isUserVaddr_pageAddr : isUserVaddr (pageAddr p) = decide (p < userPages) := by
  unfold isUserVaddr pageAddr userPages PHYS_BASE PGSIZE
  rw [decide_eq_decide]
  omega

theorem pgRoundUp_pageAddr (h : pageAddr p < 2 ^ 32) : pgRoundUp (pageAddr p) = pageAddr p := by
  unfold pgRoundUp pgRoundDown pageAddr add32 PGSIZE at *
  omega

/-- The page after the one of `a`. -/
theorem pgRoundUp_succ (h : pgNo a + 1 < 2 ^ 20) :
    pgRoundUp (add32 a 1) = pageAddr (pgNo a + 1) := by
  unfold pgRoundUp pgRoundDown pageAddr pgNo PGSIZE add32 at *
  omega

end OsTools.Vm

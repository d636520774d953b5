import Mathlib.Logic.Function.Basic
import OsTools.Vm.Vaddr
/-!
# OsTools.Vm.Pagedir

Page directories (`userprog/pagedir.c`) and the user pool of page frames
(`threads/palloc.c`). A page directory has two levels: a page table is created
when the first of its pages is mapped, and that may fail.

Frames stand for the kernel addresses of their pages. What the pools hand out
is the environment's choice: `pool` lists the frames that the next calls of
`palloc_get_page (PAL_USER)` return, and a table is created where the caller's
flag `avail` says so. The contents of pages are left out.

A failed `ASSERT` is an error. `PageDir.page` gives the entry of a page number,
and the results below say what each operation makes of it.

Two lemmas are enough to read the directory after any operation: `page_setPte` and
`create_eq_some` say which entry a page number has then. What the caller needs to know of a
page is whether there is an entry and whether there is a table for it.
-/

namespace OsTools.Vm

/-- The assertions that may fail. -/
inductive Panic
  | unaligned
  | notUser
  | present
  | notAllocated
  deriving DecidableEq

/-- A page table entry that is present. -/
structure Pte where
  frame : Nat
  writable : Bool
  deriving DecidableEq

abbrev PageTable := Nat → Option Pte

/-- The user part of a page directory. -/
abbrev PageDir := Nat → Option PageTable

def pdNo (va : Nat) : Nat := va / 2 ^ 22
def ptNo (va : Nat) : Nat := va / 2 ^ 12 % 2 ^ 10

namespace PageDir

/-- `lookup_page (pd, va, true)`: the directory with a page table for `va`. -/
def create (pd : PageDir) (va : Nat) (avail : Bool) : Option (PageTable × PageDir) :=
  match pd (pdNo va) with
  | some pt => some (pt, pd)
  | none =>
      if avail then some (fun _ => none, Function.update pd (pdNo va) (some fun _ => none))
      else none

/-- `lookup_page (pd, va, false)`, and the entry found there. -/
def lookup (pd : PageDir) (va : Nat) : Option Pte := (pd (pdNo va)).bind fun pt => pt (ptNo va)

/-- `*pte = e` in the page table `pt` of `va`. -/
def setPte (pd : PageDir) (va : Nat) (pt : PageTable) (e : Option Pte) : PageDir :=
  Function.update pd (pdNo va) (some (Function.update pt (ptNo va) e))

/-- `pagedir_set_page`; also says whether it succeeded. -/
def setPage (pd : PageDir) (upage kpage : Nat) (writable avail : Bool) :
    Except Panic (Bool × PageDir) :=
  if pgOfs upage ≠ 0 then .error .unaligned
  else if ¬ isUserVaddr upage then .error .notUser
  else
    match pd.create upage avail with
    | none => .ok (false, pd)
    | some (pt, pd) =>
        if (pt (ptNo upage)).isSome then .error .present
        else .ok (true, pd.setPte upage pt (some ⟨kpage, writable⟩))

/-- `pagedir_get_page`: the frame and the offset in it. -/
def getPage (pd : PageDir) (uaddr : Nat) : Except Panic (Option (Nat × Nat)) :=
  if ¬ isUserVaddr uaddr then .error .notUser
  else .ok ((pd.lookup uaddr).map fun pte => (pte.frame, pgOfs uaddr))

/-- `pagedir_clear_page`. -/
def clearPage (pd : PageDir) (upage : Nat) : Except Panic PageDir :=
  if pgOfs upage ≠ 0 then .error .unaligned
  else if ¬ isUserVaddr upage then .error .notUser
  else
    match pd (pdNo upage) with
    | none => .ok pd
    | some pt =>
        if (pt (ptNo upage)).isSome then .ok (pd.setPte upage pt none) else .ok pd

/-- The entry of page number `p`. -/
def page (pd : PageDir) (p : Nat) : Option Pte := pd.lookup (pageAddr p)

/-- There is a page table for page number `p`. -/
def hasTable (pd : PageDir) (p : Nat) : Bool := (pd (pdNo (pageAddr p))).isSome

variable {pd pd' : PageDir} {p q kpage : Nat} {writable avail b : Bool} {pt : PageTable}
  {e : Option Pte}

/-! ### Entries under updates -/

theorem pageAddr_eq_iff (p q : Nat) :
    p = q ↔ pdNo (pageAddr p) = pdNo (pageAddr q) ∧ ptNo (pageAddr p) = ptNo (pageAddr q) := by
  unfold pdNo ptNo pageAddr PGSIZE
  omega

theorem page_setPte (hpt : ∀ q, pdNo (pageAddr q) = pdNo (pageAddr p) →
    pt (ptNo (pageAddr q)) = pd.page q) :
    (pd.setPte (pageAddr p) pt e).page = Function.update pd.page p e := by
  funext q
  unfold page lookup setPte
  by_cases hd : pdNo (pageAddr q) = pdNo (pageAddr p)
  · rw [hd, Function.update_self, Option.bind_some]
    by_cases ht : ptNo (pageAddr q) = ptNo (pageAddr p)
    · obtain rfl := (pageAddr_eq_iff q p).mpr ⟨hd, ht⟩
      rw [Function.update_self, Function.update_self]
    · have hne : q ≠ p := by
        rintro rfl
        exact ht rfl
      rw [Function.update_of_ne ht, Function.update_of_ne hne, hpt q hd]
      rfl
  · have hne : q ≠ p := by
      rintro rfl
      exact hd rfl
    rw [Function.update_of_ne hd, Function.update_of_ne hne]

theorem table_eq (ht : pd (pdNo (pageAddr p)) = some pt) :
    ∀ q, pdNo (pageAddr q) = pdNo (pageAddr p) → pt (ptNo (pageAddr q)) = pd.page q := by
  intro q hq
  unfold page lookup
  rw [hq, ht]
  rfl

/-- A table that `create` gives holds the entries of the directory. -/
theorem create_eq_some (hc : pd.create (pageAddr p) avail = some (pt, pd')) :
    (∀ q, pdNo (pageAddr q) = pdNo (pageAddr p) → pt (ptNo (pageAddr q)) = pd.page q) ∧
      pd'.page = pd.page ∧ pd'.hasTable p = true ∧ (pd.hasTable p || avail) = true ∧
      ∀ q, pdNo (pageAddr q) ≠ pdNo (pageAddr p) → pd'.hasTable q = pd.hasTable q := by
  unfold create at hc
  split at hc
  · rename_i pt' ht
    obtain ⟨rfl, rfl⟩ := Prod.mk.inj (Option.some.inj hc)
    have htab : pd.hasTable p = true := by
      unfold hasTable
      rw [ht]
      rfl
    exact ⟨table_eq ht, rfl, htab, by rw [htab, Bool.true_or], fun _ _ => rfl⟩
  · rename_i ht
    split at hc
    · obtain ⟨rfl, rfl⟩ := Prod.mk.inj (Option.some.inj hc)
      have hnone : ∀ q, pdNo (pageAddr q) = pdNo (pageAddr p) → pd.page q = none := by
        intro q hq
        unfold page lookup
        rw [hq, ht]
        rfl
      rename_i havail
      refine ⟨fun q hq => (hnone q hq).symm, ?_, ?_, by rw [havail, Bool.or_true], fun q hq => ?_⟩
      · funext q
        by_cases hd : pdNo (pageAddr q) = pdNo (pageAddr p)
        · rw [hnone q hd]
          unfold page lookup
          rw [hd, Function.update_self]
          rfl
        · unfold page lookup
          rw [Function.update_of_ne hd]
      · unfold hasTable
        rw [Function.update_self]
        rfl
      · unfold hasTable
        rw [Function.update_of_ne hq]
    · exact absurd hc (by simp)

theorem hasTable_congr (h : pdNo (pageAddr q) = pdNo (pageAddr p)) :
    pd.hasTable q = pd.hasTable p := by
  unfold hasTable
  rw [h]

theorem hasTable_setPte_of_ne (h : pdNo (pageAddr q) ≠ pdNo (pageAddr p)) :
    (pd.setPte (pageAddr p) pt e).hasTable q = pd.hasTable q := by
  unfold hasTable setPte
  rw [Function.update_of_ne h]

theorem hasTable_setPte_self : (pd.setPte (pageAddr p) pt e).hasTable p = true := by
  unfold hasTable setPte
  rw [Function.update_self]
  rfl

/-! ### The operations -/

/-- `pagedir_get_page` on a page. -/
theorem getPage_page (hp : p < userPages) :
    pd.getPage (pageAddr p) = .ok ((pd.page p).map fun pte => (pte.frame, 0)) := by
  unfold getPage
  rw [isUserVaddr_pageAddr, if_neg (by simpa using hp), pgOfs_pageAddr]
  rfl

/-- `pagedir_clear_page` on a page. -/
theorem clearPage_page (hp : p < userPages) :
    ∃ pd', pd.clearPage (pageAddr p) = .ok pd' ∧ pd'.page = Function.update pd.page p none := by
  have hsame : pd.page p = none → pd.page = Function.update pd.page p none := fun h => by
    rw [← h, Function.update_eq_self]
  unfold clearPage
  rw [isUserVaddr_pageAddr, pgOfs_pageAddr, if_neg (by simp), if_neg (by simpa using hp)]
  split
  · rename_i ht
    refine ⟨pd, rfl, hsame ?_⟩
    unfold page lookup
    rw [ht]
    rfl
  · rename_i pt ht
    split
    · exact ⟨_, rfl, page_setPte (table_eq ht)⟩
    · rename_i hnone
      refine ⟨pd, rfl, hsame ?_⟩
      rw [← table_eq ht p rfl]
      simpa using hnone

/-- `pagedir_set_page` on a user page that is not mapped. It fails where there
is no page table and none can be created. -/
theorem setPage_page (hp : p < userPages) (hnone : pd.page p = none) :
    ∃ b pd', pd.setPage (pageAddr p) kpage writable avail = .ok (b, pd') ∧
      b = (pd.hasTable p || avail) ∧
      pd'.page = (if b then Function.update pd.page p (some ⟨kpage, writable⟩) else pd.page) ∧
      ∀ q, pd'.hasTable q = true ↔
        pd.hasTable q = true ∨ (pdNo (pageAddr p) = pdNo (pageAddr q) ∧ avail = true) := by
  unfold setPage
  rw [isUserVaddr_pageAddr, pgOfs_pageAddr, if_neg (by simp), if_neg (by simpa using hp)]
  cases hc : pd.create (pageAddr p) avail with
  | none =>
      have hno : (pd.hasTable p || avail) = false := by
        unfold create at hc
        unfold hasTable
        split at hc
        · exact absurd hc (by simp)
        · rename_i ht
          rw [ht]
          cases avail with
          | false => rfl
          | true => exact absurd hc (by simp)
      refine ⟨false, pd, rfl, hno.symm, rfl, fun q => ⟨Or.inl, fun h => h.elim id fun h => ?_⟩⟩
      rw [h.2, Bool.or_true] at hno
      exact absurd hno (by simp)
  | some r =>
      obtain ⟨pt, pd₁⟩ := r
      obtain ⟨hpt, hpage, htab, hok, hother⟩ := create_eq_some hc
      dsimp only
      rw [hpt p rfl, hnone, if_neg (by simp)]
      refine ⟨true, _, rfl, hok.symm, ?_, fun q => ?_⟩
      · rw [page_setPte (by rwa [hpage]), hpage]
        rfl
      · by_cases hd : pdNo (pageAddr q) = pdNo (pageAddr p)
        · rw [hasTable_congr hd, hasTable_setPte_self, hasTable_congr hd]
          refine iff_of_true rfl ?_
          rcases Bool.or_eq_true_iff.mp hok with h | h
          · exact Or.inl h
          · exact Or.inr ⟨hd.symm, h⟩
        · rw [hasTable_setPte_of_ne hd, hother q hd]
          exact ⟨Or.inl, fun h => h.elim id fun h => absurd h.1.symm hd⟩

/-- Otherwise it panics. -/
theorem setPage_panics (h : ¬ (p < userPages ∧ pd.page p = none)) :
    ∃ e, pd.setPage (pageAddr p) kpage writable avail = .error e := by
  unfold setPage
  rw [isUserVaddr_pageAddr, pgOfs_pageAddr, if_neg (by simp)]
  by_cases hp : p < userPages
  · rw [if_neg (by simpa using hp)]
    have hsome : pd.page p ≠ none := fun hnone => h ⟨hp, hnone⟩
    have hc : ∃ pt, pd.create (pageAddr p) avail = some (pt, pd) := by
      unfold create
      cases ht : pd (pdNo (pageAddr p)) with
      | some pt => exact ⟨pt, rfl⟩
      | none =>
          refine absurd ?_ hsome
          unfold page lookup
          rw [ht]
          rfl
    obtain ⟨pt, hc⟩ := hc
    rw [hc]
    dsimp only
    rw [(create_eq_some hc).1 p rfl, if_pos (Option.isSome_iff_ne_none.mpr hsome)]
    exact ⟨_, rfl⟩
  · rw [if_pos (by simpa using hp)]
    exact ⟨_, rfl⟩

end PageDir

end OsTools.Vm

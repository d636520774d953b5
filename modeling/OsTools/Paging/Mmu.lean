import OsTools.Paging.History
/-!
# OsTools.Paging.Mmu

What the processor makes of the page directory in `cr3`: it walks the directory and a page
table in physical memory, which is the memory above `PHYS_BASE`. The kernel's part of it is
the same in every directory, whatever `pagedir.c` does there (`process_address_space`).

## Proof shape

The walk is reduced to the entry of the address (`mmu_eq_bind`), so that an operation
matters only through the entries that it changes. Of these `pagedir.c` changes one at a
time, or makes a page table of zeros, which translates nothing. The bits that `withBit` sets
or clears are not looked at by the walk (`leaf_withBit`), so that the shared entries of the
kernel keep their meaning even where they are written.
-/

namespace OsTools.Paging

/-- Where an access goes, and whether it may write and may come from user code. -/
structure Translation where
  paddr : Word
  writable : Bool
  user : Bool
  deriving DecidableEq

/-- The page-table walk. -/
def mmu (s : State) (cr3 va : Word) : Option Translation :=
  let pde := s.mem (addrOf cr3) (pdNo va)
  let pte := s.mem (addrOf pde) (ptNo va)
  if pde &&& PTE_P = 0 ∨ pte &&& PTE_P = 0 then none
  else some {
    paddr := (pte &&& PTE_ADDR) + pgOfs va
    writable := pde &&& PTE_W ≠ 0 ∧ pte &&& PTE_W ≠ 0
    user := pde &&& PTE_U ≠ 0 ∧ pte &&& PTE_U ≠ 0 }

/-- `pagedir_activate`: what is loaded into `cr3`. -/
def pagedirActivate (k : Kernel) (pd : Word) : Except Panic Word :=
  vtop (if pd = 0 then k.initPageDir else pd)

/-- What the entry `w` of a page table makes of the address `va`. -/
def leaf (va w : Word) : Option Translation :=
  if w &&& PTE_P = 0 then none
  else some {
    paddr := (w &&& PTE_ADDR) + pgOfs va
    writable := w &&& PTE_W ≠ 0
    user := w &&& PTE_U ≠ 0 }

variable {k : Kernel} {base tables : List Word} {pd t va va' w cr3 : Word} {s s₀ s' : State}
  {f : Nat → Option Word}

/-! ### The walk -/

theorem Page.addrOf_sub (h : Page pd) : addrOf (pd - PHYS_BASE) = pd := by
  unfold addrOf
  rw [h.paddr.1, BitVec.sub_add_cancel]

theorem pde_writable (a : Word) : pde a &&& PTE_W = PTE_W := by
  unfold pde
  rw [or_and_mask]

theorem pde_user (a : Word) : pde a &&& PTE_U = PTE_U := by
  unfold pde
  rw [or_and_of_disjoint (by decide), or_and_of_disjoint (by decide), or_and_mask]

/-- The entries of the directory restrict nothing. -/
theorem mmu_eq_bind (hpd : Page pd)
    (htable : s.mem pd (pdNo va) ≠ 0 → ∃ t, s.mem pd (pdNo va) = pde t) :
    mmu s (pd - PHYS_BASE) va = (pte s pd va).bind (leaf va) := by
  unfold mmu pte
  rw [hpd.addrOf_sub]
  by_cases hzero : s.mem pd (pdNo va) = 0
  · rw [if_pos hzero, hzero]
    exact if_pos (.inl (by decide))
  · rw [if_neg hzero]
    obtain ⟨t, ht⟩ := htable hzero
    rw [ht]
    unfold leaf
    dsimp only [Option.bind_some]
    by_cases hpresent : s.mem (addrOf (pde t)) (ptNo va) &&& PTE_P = 0
    · rw [if_pos (.inr hpresent), if_pos hpresent]
    · rw [if_neg, if_neg hpresent, pde_writable, pde_user]
      · have hw : PTE_W ≠ 0 := by decide
        have hu : PTE_U ≠ 0 := by decide
        simp only [ne_eq, hw, hu, not_false_eq_true, true_and]
      · rw [pde_present]
        rintro (h | h)
        · exact absurd h (by decide)
        · exact hpresent h

theorem Repr.mmu (h : Repr k base pd s tables) (va : Word) :
    mmu s (pd - PHYS_BASE) va = (pte s pd va).bind (leaf va) := by
  refine mmu_eq_bind (h.page pd h.pd_mem).1 fun hne => ?_
  obtain ⟨t, -, -, -, -, ht, -⟩ := h.table (pdNo_lt va) hne
  exact ⟨t, ht⟩

theorem Booted.mmu (h : Booted k s) (va : Word) :
    mmu s (k.initPageDir - PHYS_BASE) va = (pte s k.initPageDir va).bind (leaf va) := by
  refine mmu_eq_bind (h.page _ h.initPageDir).1 fun hne => ?_
  rcases Nat.lt_or_ge (pdNo va) 768 with hlt | hge
  · exact absurd (h.user _ hlt) hne
  · obtain ⟨t, -, -, ht⟩ := h.kernel _ hge (pdNo_lt va) hne
    exact ⟨t, ht⟩

/-! ### Accessed and dirty bits -/

/-- What `pagedir_set_dirty` and `pagedir_set_accessed` make of an entry. -/
def withBit (bit : Word) (value : Bool) (w : Word) : Word :=
  if value then w ||| bit else w &&& ~~~bit

/-- The processor goes by other bits. -/
theorem leaf_withBit {bit : Word} (hp : bit &&& PTE_P = 0) (ha : bit &&& PTE_ADDR = 0)
    (hw : bit &&& PTE_W = 0) (hu : bit &&& PTE_U = 0) (value : Bool) (va w : Word) :
    leaf va (withBit bit value w) = leaf va w := by
  have hkeep : ∀ m, bit &&& m = 0 → withBit bit value w &&& m = w &&& m := by
    intro m hm
    unfold withBit
    cases value with
    | false => exact andNot_and_of_disjoint hm
    | true => exact or_and_of_disjoint hm
  unfold leaf
  rw [hkeep _ hp, hkeep _ ha, hkeep _ hw, hkeep _ hu]

/-- `pagedir_set_dirty` and `pagedir_set_accessed` change the entry of one page, by one bit,
and that of a page without an entry not at all. -/
theorem Repr.set_pte (h : Repr k base pd s tables) {bit : Word} {value : Bool}
    (hset : pagedirSet pd bit va value s = .ok s') (va' : Word) :
    pte s' pd va' =
      if pgNo va' = pgNo va then (pte s pd va').map (withBit bit value) else pte s pd va' := by
  unfold pagedirSet at hset
  rw [h.lookup va none, ok_bind] at hset
  by_cases hzero : s.mem pd (pdNo va) = 0
  · rw [if_pos hzero] at hset
    obtain rfl := Except.ok.inj hset
    split
    · rename_i hpg
      unfold pte
      rw [(pgNo_eq_iff.mp hpg).1, if_pos hzero]
      rfl
    · rfl
  · rw [if_neg hzero] at hset
    obtain rfl := Except.ok.inj hset
    rw [h.pte_write hzero]
    split
    · rename_i hpg
      have hindex := pgNo_eq_iff.mp hpg
      unfold pte
      rw [hindex.1, hindex.2, if_neg hzero]
      rfl
    · rfl

/-! ### The kernel's part of a directory -/

/-- Kernel addresses are translated as they were. -/
def KeepsKernel (pd : Word) (s s' : State) : Prop :=
  ∀ va, 768 ≤ pdNo va → (pte s' pd va).bind (leaf va) = (pte s pd va).bind (leaf va)

theorem Repr.set_keeps (h : Repr k base pd s tables) {bit : Word} {value : Bool}
    (hp : bit &&& PTE_P = 0) (ha : bit &&& PTE_ADDR = 0) (hw : bit &&& PTE_W = 0)
    (hu : bit &&& PTE_U = 0) (hset : pagedirSet pd bit va value s = .ok s') :
    KeepsKernel pd s s' := by
  intro va' _
  rw [h.set_pte hset]
  split
  · cases pte s pd va' with
    | none => rfl
    | some w => exact leaf_withBit hp ha hw hu value va' w
  · rfl

/-- The step lemma: no operation changes where a kernel address leads. -/
theorem Repr.exec_keeps (h : Repr k base pd s tables) (hmaps : Maps k pd s f) {op : Op} {out : Out}
    (hvalid : op.Valid k s f) (hexec : Paging.exec k pd op s = .ok (out, s')) :
    KeepsKernel pd s s' := by
  obtain ⟨out', s'', tables', hexec', hdone⟩ := h.exec hmaps hvalid
  rw [hexec] at hexec'
  obtain ⟨rfl, rfl⟩ := Prod.mk.inj (Except.ok.inj hexec')
  have huser : ∀ upage, op.page = pgNo upage → isUserVaddr upage = true → KeepsKernel pd s s' := by
    intro upage hpage hlow va hva
    rw [hdone.effect.kernel va hva]
    rw [hpage]
    intro hpg
    have := isUserVaddr_iff.mp hlow
    rw [(pgNo_eq_iff.mp hpg).1] at hva
    omega
  cases op with
  | setPage upage kpage writable outcome => exact huser upage rfl hvalid.user
  | clearPage upage => exact huser upage rfl hvalid.2
  | getPage uaddr => exact huser uaddr rfl hvalid
  | setDirty vpage dirty =>
      obtain ⟨s₁, hset, hs₁⟩ := bind_eq_ok hexec
      obtain ⟨-, rfl⟩ := Prod.mk.inj (Except.ok.inj hs₁)
      exact h.set_keeps (by decide) (by decide) (by decide) (by decide) hset
  | setAccessed vpage accessed =>
      obtain ⟨s₁, hset, hs₁⟩ := bind_eq_ok hexec
      obtain ⟨-, rfl⟩ := Prod.mk.inj (Except.ok.inj hs₁)
      exact h.set_keeps (by decide) (by decide) (by decide) (by decide) hset

/-- The run lemma, by induction on the history. -/
theorem History.keeps (hboot : Booted k s₀) (h : History k s₀ pd s f) (hva : 768 ≤ pdNo va) :
    (pte s pd va).bind (leaf va) = (pte s₀ k.initPageDir va).bind (leaf va) := by
  induction h with
  | create hfresh =>
      have hrepr := (hboot.create hfresh).1
      have hinit : (pagedirCreate k (some pd) s₀).2.mem k.initPageDir = s₀.mem k.initPageDir :=
        Function.update_of_ne hrepr.initPageDir_ne _ _
      rw [← hrepr.pte_shared hva]
      unfold pte
      rw [hinit]
      by_cases hzero : s₀.mem k.initPageDir (pdNo va) = 0
      · rw [if_pos hzero, if_pos hzero]
      · obtain ⟨t, ht, -, heq⟩ := hboot.kernel _ hva (pdNo_lt va) hzero
        have hne : t ≠ pd := fun hpd => hfresh.unused (hpd ▸ ht)
        have htable : (pagedirCreate k (some pd) s₀).2.mem t = s₀.mem t :=
          Function.update_of_ne hne _ _
        rw [heq, (hboot.page t ht).1.addrOf_pde, htable]
  | exec hhistory hvalid hexec ih =>
      obtain ⟨tables, hrepr, hmaps⟩ := hhistory.repr hboot
      rw [hrepr.exec_keeps hmaps hvalid hexec va hva, ih]

/-- A user address leads into its frame. -/
theorem Maps.leaf (hmaps : Maps k pd s f) (hva : pdNo va < 768) :
    ((pte s pd va).bind (leaf va)).map Translation.paddr =
      (f (pgNo va)).map fun frame => frame - PHYS_BASE + pgOfs va := by
  have hentry := hmaps.entry va hva
  cases hf : f (pgNo va) with
  | none =>
      rw [hf] at hentry
      cases hpte : pte s pd va with
      | none => rfl
      | some w =>
          have habsent : w &&& PTE_P = 0 := hentry w hpte
          dsimp only [Option.bind_some]
          unfold Paging.leaf
          rw [if_pos habsent]
          rfl
  | some frame =>
      rw [hf] at hentry
      obtain ⟨-, -, w, hw, hpresent, haddr⟩ := hentry
      rw [hw]
      dsimp only [Option.bind_some]
      unfold Paging.leaf
      rw [if_neg hpresent, Option.map_some, Option.map_some, ← haddr]

/-- **Address spaces.** In every history of a directory from `pagedir_create` on, with the
directory in `cr3`, a user address leads to the frame last set for its page and not cleared, and
every kernel address leads where it led in `init_page_dir`, with the same rights. -/
theorem process_address_space (hboot : Booted k s₀) (h : History k s₀ pd s f) :
    ∃ cr3 cr3₀, pagedirActivate k pd = .ok cr3 ∧ pagedirActivate k 0 = .ok cr3₀ ∧
      (∀ va, isUserVaddr va = true → (mmu s cr3 va).map Translation.paddr =
        (f (pgNo va)).map fun frame => frame - PHYS_BASE + pgOfs va) ∧
      ∀ va, isKernelVaddr va = true → mmu s cr3 va = mmu s₀ cr3₀ va := by
  obtain ⟨tables, hrepr, hmaps⟩ := h.repr hboot
  have hpd := (hrepr.page pd hrepr.pd_mem).1
  have hinit := (hboot.page _ hboot.initPageDir).1
  refine ⟨pd - PHYS_BASE, k.initPageDir - PHYS_BASE, ?_, ?_, fun va hva => ?_, fun va hva => ?_⟩
  · unfold pagedirActivate
    rw [if_neg hpd.ne_zero]
    exact hpd.vtop
  · unfold pagedirActivate
    rw [if_pos rfl]
    exact hinit.vtop
  · rw [hrepr.mmu]
    exact hmaps.leaf (isUserVaddr_iff.mp hva)
  · rw [hrepr.mmu, hboot.mmu]
    exact h.keeps hboot (isKernelVaddr_iff.mp hva)

/-- The page `0x08048000` is mapped to the frame `0xc0200000`. -/
theorem exists_small_history : ∃ s f, History smallKernel smallState 0xc0003000#32 s f ∧
    f (pgNo 0x08048123#32) = some 0xc0200000#32 := by
  have hfresh : Fresh smallKernel smallState 0xc0003000#32 :=
    ⟨⟨by decide, by decide⟩, by decide, by decide⟩
  have hvalid : Op.Valid smallKernel (pagedirCreate smallKernel (some 0xc0003000#32) smallState).2
      (fun _ => none) (.setPage 0x08048000#32 0xc0200000#32 true (some 0xc0004000#32)) := by
    refine ⟨by decide, by decide, rfl, ⟨by decide, by decide⟩, by decide, by decide, nofun, ?_⟩
    intro t ht
    cases ht
    exact ⟨⟨by decide, by decide⟩, by decide, by decide⟩
  exact ⟨_, _, @History.exec _ _ _ _ _ _ _ (.set true) (History.create hfresh) hvalid rfl, rfl⟩

theorem process_address_space_one : ∃ s cr3, pagedirActivate smallKernel 0xc0003000#32 = .ok cr3 ∧
    (mmu s cr3 0x08048123#32).map Translation.paddr = some 0x00200123#32 := by
  obtain ⟨s, f, hhistory, hf⟩ := exists_small_history
  obtain ⟨cr3, -, hcr3, -, huser, -⟩ := process_address_space booted_small hhistory
  refine ⟨s, cr3, hcr3, ?_⟩
  rw [huser 0x08048123#32 (by decide), hf]
  rfl

end OsTools.Paging

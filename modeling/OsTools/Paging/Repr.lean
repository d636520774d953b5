import OsTools.Paging.Pagedir
/-!
# OsTools.Paging.Repr

A page directory in memory: `Repr` says which pages it is made of, and `Maps` which frames
the user pages have. `pte` is the entry of an address, and the two changes that are made to
memory, a word of a page table and a new page table, are described by what they do to it.

## Proof shape

`Repr` is a separation invariant: the directory, its own page tables and those of the kernel
are different pages, none of them of the user pool, and no two entries of the directory lead
to the same table. So a word written to one page table is the entry of one page number
(`Repr.pte_write`), and a new page table changes no entry that was there
(`Repr.pte_create`). These two lemmas, and `Repr.lookup`, are how the operations are
verified; none of them looks at memory any more.
-/

namespace OsTools.Paging

/-- The entry of an address, if there is a page table for it. -/
def pte (s : State) (pd va : Word) : Option Word :=
  if s.mem pd (pdNo va) = 0 then none
  else some (s.mem (addrOf (s.mem pd (pdNo va))) (ptNo va))

/-- A page that the kernel pool may hand out. -/
structure Fresh (k : Kernel) (s : State) (page : Word) : Prop extends Page page where
  pool : k.userPool page = false
  unused : page ∉ s.taken

/-- The state of `init_page_dir` once `paging_init` is through: only kernel addresses are
mapped, each page table is there for one entry. -/
structure Booted (k : Kernel) (s : State) : Prop where
  nodup : s.taken.Nodup
  page : ∀ a ∈ s.taken, Page a ∧ k.userPool a = false
  initPageDir : k.initPageDir ∈ s.taken
  user : ∀ d < 768, s.mem k.initPageDir d = 0
  kernel : ∀ d, 768 ≤ d → d < 1024 → s.mem k.initPageDir d ≠ 0 →
    ∃ t ∈ s.taken, t ≠ k.initPageDir ∧ s.mem k.initPageDir d = pde t
  inj : ∀ d d', d < 1024 → d' < 1024 → s.mem k.initPageDir d = s.mem k.initPageDir d' →
    s.mem k.initPageDir d ≠ 0 → d = d'

/-- The pages of a directory `pd`: `tables` are the page tables that were made for it, and
`base` are the pages that were in use before it. -/
structure Repr (k : Kernel) (base : List Word) (pd : Word) (s : State) (tables : List Word) :
    Prop where
  taken : s.taken = tables ++ pd :: base
  nodup : s.taken.Nodup
  page : ∀ a ∈ s.taken, Page a ∧ k.userPool a = false
  initPageDir : k.initPageDir ∈ base
  user : ∀ d < 768, s.mem pd d ≠ 0 → ∃ t ∈ tables, s.mem pd d = pde t
  shared : ∀ d, 768 ≤ d → d < 1024 → s.mem pd d = s.mem k.initPageDir d
  kernel : ∀ d, 768 ≤ d → d < 1024 → s.mem pd d ≠ 0 →
    ∃ t ∈ base, t ≠ k.initPageDir ∧ s.mem pd d = pde t
  inj : ∀ d d', d < 1024 → d' < 1024 → s.mem pd d = s.mem pd d' → s.mem pd d ≠ 0 → d = d'
  used : ∀ t ∈ tables, ∃ d < 768, s.mem pd d = pde t

/-- The entry of a user page says that its frame is `f`. -/
def Entry (k : Kernel) (f : Option Word) (w : Option Word) : Prop :=
  match f with
  | none => ∀ w' ∈ w, w' &&& PTE_P = 0
  | some a => Page a ∧ k.userPool a = true ∧
      ∃ w', w = some w' ∧ w' &&& PTE_P ≠ 0 ∧ w' &&& PTE_ADDR = a - PHYS_BASE

/-- The frames of the user pages, by page number. -/
structure Maps (k : Kernel) (pd : Word) (s : State) (f : Nat → Option Word) : Prop where
  entry : ∀ va, pdNo va < 768 → Entry k (f (pgNo va)) (pte s pd va)
  inj : ∀ p q a, f p = some a → f q = some a → p = q
  user : ∀ p a, f p = some a → ∃ va, pdNo va < 768 ∧ pgNo va = p

section Shape

variable {k : Kernel} {base tables : List Word} {pd t va va' w : Word} {s : State} {d i : Nat}

/-- A page table of the directory is none of the directories, and known by its entry. -/
theorem Repr.table (h : Repr k base pd s tables) (hd : d < 1024) (hne : s.mem pd d ≠ 0) :
    ∃ t ∈ s.taken, t ≠ pd ∧ t ≠ k.initPageDir ∧ Page t ∧ s.mem pd d = pde t ∧
      (d < 768 → t ∈ tables) := by
  have hnodup := h.nodup
  rw [h.taken] at hnodup
  obtain ⟨-, hbase, hdisj⟩ := List.nodup_append.mp hnodup
  have hpd : pd ∉ base := (List.nodup_cons.mp hbase).1
  rcases Nat.lt_or_ge d 768 with hlt | hge
  · obtain ⟨t, ht, heq⟩ := h.user d hlt hne
    have hmem : t ∈ s.taken := by
      rw [h.taken]
      exact List.mem_append_left _ ht
    refine ⟨t, hmem, ?_, ?_, (h.page t hmem).1, heq, fun _ => ht⟩
    · exact hdisj t ht pd List.mem_cons_self
    · exact hdisj t ht _ (List.mem_cons_of_mem _ h.initPageDir)
  · obtain ⟨t, ht, hipd, heq⟩ := h.kernel d hge hd hne
    have hmem : t ∈ s.taken := by
      rw [h.taken]
      exact List.mem_append_right _ (List.mem_cons_of_mem _ ht)
    refine ⟨t, hmem, ?_, hipd, (h.page t hmem).1, heq, fun hlt => by omega⟩
    rintro rfl
    exact hpd ht

theorem Repr.pd_mem (h : Repr k base pd s tables) : pd ∈ s.taken := by
  rw [h.taken]
  exact List.mem_append_right _ List.mem_cons_self

theorem Repr.initPageDir_ne (h : Repr k base pd s tables) : k.initPageDir ≠ pd := by
  have hnodup := h.nodup
  rw [h.taken] at hnodup
  intro heq
  have hbase := (List.nodup_append.mp hnodup).2.1
  exact (List.nodup_cons.mp hbase).1 (heq ▸ h.initPageDir)

theorem Page.ne_zero (h : Page t) : t ≠ 0 := by
  rintro rfl
  exact absurd h.kernel (by decide)

/-- `lookup_page` without `create` finds the entry. -/
theorem Repr.lookup (h : Repr k base pd s tables) (va : Word) (outcome : Option Word) :
    lookupPage pd va false outcome s = .ok (if s.mem pd (pdNo va) = 0 then none
      else some (addrOf (s.mem pd (pdNo va)), ptNo va), s) := by
  unfold lookupPage
  rw [if_neg (h.page pd h.pd_mem).1.ne_zero, Bool.false_and, if_neg (by decide)]
  by_cases hzero : s.mem pd (pdNo va) = 0
  · rw [if_pos hzero, if_pos hzero, if_neg (by decide)]
  · obtain ⟨t, -, -, -, hpage, heq, -⟩ := h.table (pdNo_lt va) hzero
    rw [if_neg hzero, if_neg hzero, heq, hpage.pdeGetPt, ok_bind, hpage.addrOf_pde]

/-- A word is written to a page table. -/
theorem Repr.write (h : Repr k base pd s tables) (hpd : t ≠ pd) (hipd : t ≠ k.initPageDir) :
    Repr k base pd (s.write t i w) tables := by
  have hmem : (s.write t i w).mem pd = s.mem pd := Function.update_of_ne (Ne.symm hpd) _ _
  have hinit : (s.write t i w).mem k.initPageDir = s.mem k.initPageDir :=
    Function.update_of_ne (Ne.symm hipd) _ _
  refine ⟨h.taken, h.nodup, h.page, h.initPageDir, ?_, ?_, ?_, ?_, ?_⟩
  · rw [hmem]
    exact h.user
  · rw [hmem, hinit]
    exact h.shared
  · rw [hmem]
    exact h.kernel
  · rw [hmem]
    exact h.inj
  · rw [hmem]
    exact h.used

/-- It is the entry of one page, and all others stay. -/
theorem Repr.pte_write (h : Repr k base pd s tables) (hne : s.mem pd (pdNo va) ≠ 0) :
    pte (s.write (addrOf (s.mem pd (pdNo va))) (ptNo va) w) pd va' =
      if pgNo va' = pgNo va then some w else pte s pd va' := by
  obtain ⟨t, -, hpd, -, hpage, heq, -⟩ := h.table (pdNo_lt va) hne
  rw [heq, hpage.addrOf_pde]
  have hmem : (s.write t (ptNo va) w).mem pd = s.mem pd :=
    Function.update_of_ne (Ne.symm hpd) _ _
  unfold pte
  rw [hmem]
  by_cases hzero : s.mem pd (pdNo va') = 0
  · have hpg : pgNo va' ≠ pgNo va := by
      intro hpg
      rw [(pgNo_eq_iff.mp hpg).1] at hzero
      exact hne hzero
    rw [if_pos hzero, if_neg hpg, if_pos hzero]
  · obtain ⟨t', -, -, -, hpage', heq', -⟩ := h.table (pdNo_lt va') hzero
    rw [if_neg hzero, if_neg hzero, heq', hpage'.addrOf_pde]
    by_cases htt : t' = t
    · subst htt
      have hd : pdNo va' = pdNo va :=
        h.inj _ _ (pdNo_lt va') (pdNo_lt va) (heq'.trans heq.symm) hzero
      have hself : (s.write t' (ptNo va) w).mem t' = Function.update (s.mem t') (ptNo va) w :=
        Function.update_self _ _ _
      rw [hself]
      by_cases hi : ptNo va' = ptNo va
      · rw [if_pos (pgNo_eq_iff.mpr ⟨hd, hi⟩), hi, Function.update_self]
      · have hpg : pgNo va' ≠ pgNo va := fun hpg => hi (pgNo_eq_iff.mp hpg).2
        rw [if_neg hpg, Function.update_of_ne hi]
    · have hother : (s.write t (ptNo va) w).mem t' = s.mem t' :=
        Function.update_of_ne htt _ _
      have hpg : pgNo va' ≠ pgNo va := by
        intro hpg
        rw [(pgNo_eq_iff.mp hpg).1] at heq'
        exact htt (hpage'.pde_inj hpage (heq'.symm.trans heq))
      rw [hother, if_neg hpg]

/-- A page table is made for the entry `d` of the directory. -/
def State.create (s : State) (pd : Word) (d : Nat) (t : Word) : State :=
  (s.takeZeroed t).write pd d (pde t)

theorem Repr.mem_create (h : Repr k base pd s tables) (hfresh : Fresh k s t) {a : Word}
    (ha : a ≠ t) : (s.create pd d t).mem a =
      if a = pd then Function.update (s.mem pd) d (pde t) else s.mem a := by
  have hpd : pd ≠ t := fun heq => hfresh.unused (heq ▸ h.pd_mem)
  have hzeroed : ∀ b, b ≠ t → (s.takeZeroed t).mem b = s.mem b :=
    fun b hb => Function.update_of_ne hb _ _
  unfold State.create
  by_cases hap : a = pd
  · subst hap
    rw [if_pos rfl]
    have hself : ((s.takeZeroed t).write a d (pde t)).mem a =
        Function.update ((s.takeZeroed t).mem a) d (pde t) := Function.update_self _ _ _
    rw [hself, hzeroed a ha]
  · rw [if_neg hap]
    have hother : ((s.takeZeroed t).write pd d (pde t)).mem a = (s.takeZeroed t).mem a :=
      Function.update_of_ne hap _ _
    rw [hother, hzeroed a ha]

theorem Repr.mem_create_self (h : Repr k base pd s tables) (hfresh : Fresh k s t) :
    (s.create pd d t).mem t = fun _ => 0 := by
  have hpd : t ≠ pd := fun heq => hfresh.unused (heq ▸ h.pd_mem)
  have hother : (s.create pd d t).mem t = (s.takeZeroed t).mem t := Function.update_of_ne hpd _ _
  rw [hother]
  exact Function.update_self _ _ _

/-- There is one page table more. No entry leads to the page yet, since it was not in use; so
it becomes the table of one entry, and that of no other. -/
theorem Repr.create (h : Repr k base pd s tables) (hfresh : Fresh k s t) (hd : d < 768)
    (hzero : s.mem pd d = 0) : Repr k base pd (s.create pd d t) (t :: tables) := by
  have hpd : pd ≠ t := fun heq => hfresh.unused (heq ▸ h.pd_mem)
  have hipd : k.initPageDir ≠ t := by
    intro heq
    refine hfresh.unused (heq ▸ ?_)
    rw [h.taken]
    exact List.mem_append_right _ (List.mem_cons_of_mem _ h.initPageDir)
  have hmem : (s.create pd d t).mem pd = Function.update (s.mem pd) d (pde t) := by
    rw [h.mem_create hfresh hpd, if_pos rfl]
  have hinit : (s.create pd d t).mem k.initPageDir = s.mem k.initPageDir := by
    rw [h.mem_create hfresh hipd, if_neg h.initPageDir_ne]
  -- no entry leads to the new table yet
  have hold : ∀ d', d' < 1024 → s.mem pd d' ≠ pde t := by
    intro d' hd' heq
    obtain ⟨t', ht', -, -, hpage', heq', -⟩ := h.table hd' (heq ▸ pde_ne_zero t)
    obtain rfl := hfresh.toPage.pde_inj hpage' (heq.symm.trans heq')
    exact hfresh.unused ht'
  refine ⟨?_, ?_, fun a ha => ?_, h.initPageDir, ?_, ?_, ?_, ?_, ?_⟩
  · change t :: s.taken = _
    rw [h.taken]
    rfl
  · exact List.nodup_cons.mpr ⟨hfresh.unused, h.nodup⟩
  · rcases List.mem_cons.mp ha with rfl | ha
    · exact ⟨hfresh.toPage, hfresh.pool⟩
    · exact h.page a ha
  · intro d' hd' hne
    rw [hmem] at hne ⊢
    by_cases hdd : d' = d
    · subst hdd
      exact ⟨t, List.mem_cons_self, Function.update_self _ _ _⟩
    · rw [Function.update_of_ne hdd] at hne ⊢
      obtain ⟨t', ht', heq⟩ := h.user d' hd' hne
      exact ⟨t', List.mem_cons_of_mem _ ht', heq⟩
  · intro d' hge hlt
    rw [hmem, hinit, Function.update_of_ne (by omega)]
    exact h.shared d' hge hlt
  · intro d' hge hlt hne
    rw [hmem, Function.update_of_ne (by omega)] at hne ⊢
    exact h.kernel d' hge hlt hne
  · intro d₁ d₂ h₁ h₂ heq hne
    rw [hmem] at heq hne
    by_cases hd₁ : d₁ = d
    · by_cases hd₂ : d₂ = d
      · rw [hd₁, hd₂]
      · rw [hd₁, Function.update_self, Function.update_of_ne hd₂] at heq
        exact absurd heq.symm (hold d₂ h₂)
    · rw [Function.update_of_ne hd₁] at heq hne
      by_cases hd₂ : d₂ = d
      · rw [hd₂, Function.update_self] at heq
        exact absurd heq (hold d₁ h₁)
      · rw [Function.update_of_ne hd₂] at heq
        exact h.inj d₁ d₂ h₁ h₂ heq hne
  · intro t' ht'
    rw [hmem]
    rcases List.mem_cons.mp ht' with rfl | ht'
    · exact ⟨d, hd, Function.update_self _ _ _⟩
    · obtain ⟨d', hd', heq⟩ := h.used t' ht'
      refine ⟨d', hd', ?_⟩
      rw [Function.update_of_ne, heq]
      rintro rfl
      rw [hzero] at heq
      exact pde_ne_zero t' heq.symm

/-- Its entries are zero, and all others stay. -/
theorem Repr.pte_create (h : Repr k base pd s tables) (hfresh : Fresh k s t) :
    pte (s.create pd d t) pd va = if pdNo va = d then some 0 else pte s pd va := by
  have hpd : pd ≠ t := fun heq => hfresh.unused (heq ▸ h.pd_mem)
  unfold pte
  rw [h.mem_create hfresh hpd, if_pos rfl]
  by_cases hd : pdNo va = d
  · subst hd
    rw [Function.update_self, if_neg (pde_ne_zero t), if_pos rfl, hfresh.toPage.addrOf_pde,
      h.mem_create_self hfresh]
  · rw [Function.update_of_ne hd, if_neg hd]
    by_cases hzero : s.mem pd (pdNo va) = 0
    · rw [if_pos hzero, if_pos hzero]
    · obtain ⟨t', ht', htpd, -, hpage', heq', -⟩ := h.table (pdNo_lt va) hzero
      have htt : t' ≠ t := fun heq => hfresh.unused (heq ▸ ht')
      rw [if_neg hzero, if_neg hzero, heq', hpage'.addrOf_pde, h.mem_create hfresh htt,
        if_neg htpd]

/-- `lookup_page` with `create`, where there is a page table, or none can be made, or one is
made. -/
theorem Repr.lookup_create (h : Repr k base pd s tables) (huser : isUserVaddr va = true)
    {outcome : Option Word} (hoc : ∀ t ∈ outcome, Fresh k s t) :
    lookupPage pd va true outcome s =
      if s.mem pd (pdNo va) = 0 then
        match outcome with
        | none => .ok (none, s)
        | some t => .ok (some (t, ptNo va), s.create pd (pdNo va) t)
      else .ok (some (addrOf (s.mem pd (pdNo va)), ptNo va), s) := by
  unfold lookupPage
  rw [if_neg (h.page pd h.pd_mem).1.ne_zero, huser, if_neg (by decide)]
  by_cases hzero : s.mem pd (pdNo va) = 0
  · rw [if_pos hzero, if_pos hzero, if_pos rfl]
    cases outcome with
    | none => rfl
    | some t =>
        have hfresh := hoc t rfl
        have hpd : pd ≠ t := fun heq => hfresh.unused (heq ▸ h.pd_mem)
        dsimp only
        rw [hfresh.toPage.pdeCreate, ok_bind]
        have hmem : ((s.takeZeroed t).write pd (pdNo va) (pde t)).mem pd (pdNo va) = pde t := by
          change (s.create pd (pdNo va) t).mem pd (pdNo va) = pde t
          rw [h.mem_create hfresh hpd, if_pos rfl, Function.update_self]
        rw [hmem, hfresh.toPage.pdeGetPt, ok_bind]
        rfl
  · obtain ⟨t, -, -, -, hpage, heq, -⟩ := h.table (pdNo_lt va) hzero
    rw [if_neg hzero, if_neg hzero, heq, hpage.pdeGetPt, ok_bind, hpage.addrOf_pde]

end Shape

end OsTools.Paging

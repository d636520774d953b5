import OsTools.Paging.Repr
/-!
# OsTools.Paging.Operations

What the operations of `pagedir.c` find and change, in terms of the entries of addresses.

## Proof shape

Every operation is a lookup and at most one write. `Effect` is the common form of what it
may do, and composes (`Effect.trans`), so that `pagedir_set_page` is a page table that is
made and then an entry that is written. What another page shows is the same afterwards in
one of two ways (`Kept`): its entry is as it was, or there was no page table and now there
is one, with a zero, and both are shown as absent.
-/

namespace OsTools.Paging

section Operations

variable {k : Kernel} {base tables : List Word} {pd va va' w bit : Word} {s s' : State}
  {f f' : Nat → Option Word} {p : Nat}

/-! ### Looking up -/

/-- The frame that an entry shows. -/
def shownFrame (entry : Option Word) (ofs : Word) : Except Panic (Option Word) :=
  match entry with
  | none => .ok none
  | some w =>
      if w &&& PTE_P ≠ 0 then do
        let page ← pteGetPage w
        .ok (some (page + ofs))
      else .ok none

/-- The bit that an entry shows. -/
def shownBit (entry : Option Word) (bit : Word) : Bool :=
  match entry with
  | none => false
  | some w => decide (w &&& bit ≠ 0)

theorem Repr.getPage (h : Repr k base pd s tables) (huser : isUserVaddr va = true) :
    pagedirGetPage pd va s = shownFrame (pte s pd va) (pgOfs va) := by
  unfold pagedirGetPage pte
  rw [huser, if_neg (by decide), h.lookup va none, ok_bind]
  by_cases hzero : s.mem pd (pdNo va) = 0
  · rw [if_pos hzero, if_pos hzero]
    rfl
  · rw [if_neg hzero, if_neg hzero]
    rfl

theorem Repr.is (h : Repr k base pd s tables) :
    pagedirIs pd bit va s = .ok (shownBit (pte s pd va) bit) := by
  unfold pagedirIs pte
  rw [h.lookup va none, ok_bind]
  by_cases hzero : s.mem pd (pdNo va) = 0
  · rw [if_pos hzero, if_pos hzero]
    rfl
  · rw [if_neg hzero, if_neg hzero]
    rfl

/-- The operations find the same at the address. -/
structure Same (pd : Word) (s s' : State) (va : Word) : Prop where
  getPage : pagedirGetPage pd va s' = pagedirGetPage pd va s
  isDirty : pagedirIsDirty pd va s' = pagedirIsDirty pd va s
  isAccessed : pagedirIsAccessed pd va s' = pagedirIsAccessed pd va s

/-- The entry is as before, or it is a zero where there was none. -/
def Kept (pd : Word) (s s' : State) (va : Word) : Prop :=
  pte s' pd va = pte s pd va ∨ pte s pd va = none ∧ pte s' pd va = some 0

/-- An entry that was kept shows what it did, also where the page table is new: then it is
zero, and there was nothing to show before. -/
theorem Kept.same {tables' : List Word} (hkept : Kept pd s s' va) (h : Repr k base pd s tables)
    (h' : Repr k base pd s' tables') : Same pd s s' va := by
  have hframe : ∀ ofs, shownFrame (pte s' pd va) ofs = shownFrame (pte s pd va) ofs := by
    intro ofs
    rcases hkept with heq | ⟨hnone, hzero⟩
    · rw [heq]
    · rw [hnone, hzero]
      rfl
  have hbit : ∀ bit, shownBit (pte s' pd va) bit = shownBit (pte s pd va) bit := by
    intro bit
    rcases hkept with heq | ⟨hnone, hzero⟩
    · rw [heq]
    · rw [hnone, hzero]
      change decide (0#32 &&& bit ≠ 0) = false
      rw [BitVec.zero_and]
      rfl
  refine ⟨?_, ?_, ?_⟩
  · cases huser : isUserVaddr va with
    | true => rw [h.getPage huser, h'.getPage huser, hframe]
    | false =>
        unfold pagedirGetPage
        rw [huser]
        rfl
  · unfold pagedirIsDirty
    rw [h.is, h'.is, hbit]
  · unfold pagedirIsAccessed
    rw [h.is, h'.is, hbit]

/-- The frame of a user page is found. -/
theorem Maps.getPage (hmaps : Maps k pd s f) (h : Repr k base pd s tables)
    (huser : isUserVaddr va = true) :
    pagedirGetPage pd va s = .ok ((f (pgNo va)).map fun frame => frame + pgOfs va) := by
  rw [h.getPage huser]
  have hentry := hmaps.entry va (isUserVaddr_iff.mp huser)
  cases hf : f (pgNo va) with
  | none =>
      rw [hf] at hentry
      unfold shownFrame
      cases hpte : pte s pd va with
      | none => rfl
      | some w =>
          have hclear := hentry w hpte
          dsimp only
          rw [if_neg (by rw [hclear]; decide)]
          rfl
  | some a =>
      rw [hf] at hentry
      obtain ⟨hpage, -, w, hpte, hpresent, haddr⟩ := hentry
      unfold shownFrame pteGetPage
      rw [hpte]
      dsimp only
      rw [if_pos hpresent, ptov_of_addr hpage haddr]
      rfl

/-! ### Changing -/

/-- The frames after a change to the page number `p`. The entries of other pages show what
they did; a frame that is new must not be one that another page has. -/
theorem Maps.change (hmaps : Maps k pd s f)
    (hkept : ∀ va, pdNo va < 768 → pgNo va ≠ p → Kept pd s s' va)
    (hf : ∀ q, q ≠ p → f' q = f q)
    (hentry : ∀ va, pdNo va < 768 → pgNo va = p → Entry k (f' p) (pte s' pd va))
    (hnew : ∀ a, f' p = some a → (∀ q, q ≠ p → f q ≠ some a) ∧ ∃ va, pdNo va < 768 ∧ pgNo va = p) :
    Maps k pd s' f' where
  entry va hva := by
    by_cases hp : pgNo va = p
    · rw [hp]
      exact hentry va hva hp
    · rw [hf _ hp]
      have hold := hmaps.entry va hva
      rcases hkept va hva hp with heq | ⟨hnone, hzero⟩
      · rw [heq]
        exact hold
      · rw [hnone] at hold
        cases hfva : f (pgNo va) with
        | none =>
            intro w hw
            rw [hzero] at hw
            cases hw
            decide
        | some a =>
            rw [hfva] at hold
            obtain ⟨-, -, w, hw, -⟩ := hold
            cases hw
  inj p₁ p₂ a h₁ h₂ := by
    by_cases hp₁ : p₁ = p
    · by_cases hp₂ : p₂ = p
      · rw [hp₁, hp₂]
      · rw [hp₁] at h₁
        rw [hf _ hp₂] at h₂
        exact absurd h₂ ((hnew a h₁).1 p₂ hp₂)
    · by_cases hp₂ : p₂ = p
      · rw [hp₂] at h₂
        rw [hf _ hp₁] at h₁
        exact absurd h₁ ((hnew a h₂).1 p₁ hp₁)
      · rw [hf _ hp₁] at h₁
        rw [hf _ hp₂] at h₂
        exact hmaps.inj p₁ p₂ a h₁ h₂
  user q a hq := by
    by_cases hqp : q = p
    · subst hqp
      exact (hnew a hq).2
    · rw [hf q hqp] at hq
      exact hmaps.user q a hq

/-- An entry whose present bit and address stay. -/
theorem Entry.congr {frame : Option Word} {w w' : Word} (h : Entry k frame (some w))
    (hpresent : w' &&& PTE_P = w &&& PTE_P) (haddr : w' &&& PTE_ADDR = w &&& PTE_ADDR) :
    Entry k frame (some w') := by
  cases frame with
  | none =>
      intro w₁ hw₁
      cases hw₁
      rw [hpresent]
      exact h w rfl
  | some a =>
      obtain ⟨hpage, hpool, w₁, hw₁, hp, ha⟩ := h
      cases hw₁
      exact ⟨hpage, hpool, w', rfl, by rw [hpresent]; exact hp, haddr.trans ha⟩

/-- What an entry says besides whether the page has been accessed or written. -/
def mapping (entry : Option Word) : Option Word := entry.map (· &&& ~~~(PTE_A ||| PTE_D))

/-- What an operation on the page of `va` may do: the directory stays one, with the page
tables `tables'`, the entries of the other pages are kept, those of the kernel as they are,
and no kernel page is mapped differently. -/
structure Effect (k : Kernel) (base : List Word) (pd : Word) (s : State) (p : Nat) (s' : State)
    (tables' : List Word) : Prop where
  repr : Repr k base pd s' tables'
  kept : ∀ va, pgNo va ≠ p → Kept pd s s' va
  kernel : ∀ va, 768 ≤ pdNo va → pgNo va ≠ p → pte s' pd va = pte s pd va
  mapping : ∀ va, 768 ≤ pdNo va → mapping (pte s' pd va) = mapping (pte s pd va)
  freed : s'.freed = s.freed

theorem Repr.unchanged (h : Repr k base pd s tables) : Effect k base pd s p s tables :=
  ⟨h, fun _ _ => .inl rfl, fun _ _ _ => rfl, fun _ _ => rfl, rfl⟩

/-- The entry of an address for which there is a page table. -/
theorem pte_eq_some (hne : s.mem pd (pdNo va) ≠ 0) :
    pte s pd va = some (s.mem (addrOf (s.mem pd (pdNo va))) (ptNo va)) := if_neg hne

theorem pte_congr (h : pgNo va' = pgNo va) : pte s pd va' = pte s pd va := by
  obtain ⟨hd, hi⟩ := pgNo_eq_iff.mp h
  unfold pte
  rw [hd, hi]

/-- A word is written to the entry of `va`. That of a kernel page keeps its mapping. -/
theorem Repr.written (h : Repr k base pd s tables) (hne : s.mem pd (pdNo va) ≠ 0) (w : Word)
    (hw : 768 ≤ pdNo va → mapping (some w) = mapping (pte s pd va)) :
    Effect k base pd s (pgNo va) (s.write (addrOf (s.mem pd (pdNo va))) (ptNo va) w) tables := by
  obtain ⟨t, -, hpd, hipd, hpage, heq, -⟩ := h.table (pdNo_lt va) hne
  refine ⟨?_, fun va' hva' => .inl ?_, fun va' _ hva' => ?_, fun va' hd => ?_, rfl⟩
  · rw [heq, hpage.addrOf_pde]
    exact h.write hpd hipd
  · rw [h.pte_write hne, if_neg hva']
  · rw [h.pte_write hne, if_neg hva']
  · rw [h.pte_write hne]
    by_cases hp : pgNo va' = pgNo va
    · rw [if_pos hp, pte_congr hp]
      exact hw ((pgNo_eq_iff.mp hp).1 ▸ hd)
    · rw [if_neg hp]

/-- `pagedir_set_dirty` and `pagedir_set_accessed`. -/
theorem Repr.set (h : Repr k base pd s tables) (hmaps : Maps k pd s f) (bit va : Word)
    (hbit : bit &&& PTE_P = 0 ∧ bit &&& PTE_ADDR = 0 ∧ bit &&& ~~~(PTE_A ||| PTE_D) = 0)
    (value : Bool) :
    ∃ s', pagedirSet pd bit va value s = .ok s' ∧ Effect k base pd s (pgNo va) s' tables ∧
      Maps k pd s' f := by
  unfold pagedirSet
  rw [h.lookup va none, ok_bind]
  by_cases hzero : s.mem pd (pdNo va) = 0
  · rw [if_pos hzero]
    exact ⟨s, rfl, h.unchanged, hmaps⟩
  · rw [if_neg hzero]
    -- the bit is in none of the masks
    have hkeep : ∀ m, bit &&& m = 0 → ∀ w : Word,
        (if value then w ||| bit else w &&& ~~~bit) &&& m = w &&& m := by
      intro m hm w
      cases value with
      | true => exact or_and_of_disjoint hm
      | false => exact andNot_and_of_disjoint hm
    obtain ⟨hpresent, haddr, hmapped⟩ := hbit
    have hpte := pte_eq_some hzero
    have heffect := h.written hzero (if value then
      s.mem (addrOf (s.mem pd (pdNo va))) (ptNo va) ||| bit else
      s.mem (addrOf (s.mem pd (pdNo va))) (ptNo va) &&& ~~~bit) fun _ => by
        rw [hpte]
        exact congrArg some (hkeep _ hmapped _)
    refine ⟨_, rfl, heffect, ?_⟩
    refine hmaps.change (p := pgNo va) (fun va' _ hva' => heffect.kept va' hva') (fun _ _ => rfl)
      (fun va' hva' hp => ?_) fun a ha => ⟨fun q hq hqa => hq (hmaps.inj q _ a hqa ha),
        hmaps.user _ a ha⟩
    rw [h.pte_write hzero, if_pos hp, ← hp]
    have hold := hmaps.entry va' hva'
    rw [pte_congr hp, hpte] at hold
    exact hold.congr (hkeep _ hpresent _) (hkeep _ haddr _)

/-- `pagedir_clear_page`. Without a page table there is nothing to do; otherwise the present
bit is cleared, so that the page shows no frame any more. -/
theorem Repr.clear (h : Repr k base pd s tables) (hmaps : Maps k pd s f)
    (haligned : pgOfs va = 0) (huser : isUserVaddr va = true) :
    ∃ s', pagedirClearPage pd va s = .ok s' ∧ Effect k base pd s (pgNo va) s' tables ∧
      Maps k pd s' (Function.update f (pgNo va) none) := by
  unfold pagedirClearPage
  rw [haligned, huser, if_neg (by decide), if_neg (by decide), h.lookup va none, ok_bind]
  have hnew : ∀ a, Function.update f (pgNo va) none (pgNo va) = some a →
      (∀ q, q ≠ pgNo va → f q ≠ some a) ∧ ∃ va', pdNo va' < 768 ∧ pgNo va' = pgNo va := by
    intro a ha
    rw [Function.update_self] at ha
    cases ha
  have hnotKernel : ¬ 768 ≤ pdNo va := Nat.not_le.mpr (isUserVaddr_iff.mp huser)
  by_cases hzero : s.mem pd (pdNo va) = 0
  · rw [if_pos hzero]
    refine ⟨s, rfl, h.unchanged, hmaps.change (fun _ _ _ => .inl rfl)
      (fun q hq => Function.update_of_ne hq _ _) (fun va' _ hp => ?_) hnew⟩
    rw [Function.update_self, pte_congr hp]
    unfold pte
    rw [if_pos hzero]
    exact nofun
  · rw [if_neg hzero]
    have hpte := pte_eq_some hzero
    dsimp only
    by_cases hpresent : s.mem (addrOf (s.mem pd (pdNo va))) (ptNo va) &&& PTE_P ≠ 0
    · rw [if_pos hpresent]
      have heffect := h.written hzero
        (s.mem (addrOf (s.mem pd (pdNo va))) (ptNo va) &&& ~~~PTE_P)
        fun hd => absurd hd hnotKernel
      refine ⟨_, rfl, heffect, hmaps.change (fun va' _ hva' => heffect.kept va' hva')
        (fun q hq => Function.update_of_ne hq _ _) (fun va' _ hp => ?_) hnew⟩
      rw [Function.update_self, h.pte_write hzero, if_pos hp]
      intro w hw
      cases hw
      exact andNot_and_mask
    · rw [if_neg hpresent]
      refine ⟨s, rfl, h.unchanged, hmaps.change (fun _ _ _ => .inl rfl)
        (fun q hq => Function.update_of_ne hq _ _) (fun va' _ hp => ?_) hnew⟩
      rw [Function.update_self, pte_congr hp, hpte]
      intro w hw
      cases hw
      exact not_not.mp hpresent

/-- Effects of two steps on one page. -/
theorem Effect.trans {s'' : State} {tables' tables'' : List Word}
    (h : Effect k base pd s p s' tables') (h' : Effect k base pd s' p s'' tables'') :
    Effect k base pd s p s'' tables'' where
  repr := h'.repr
  kept va hva := by
    rcases h.kept va hva with heq | ⟨hnone, hzero⟩
    · rcases h'.kept va hva with heq' | ⟨hnone', hzero'⟩
      · exact .inl (heq'.trans heq)
      · exact .inr ⟨heq.symm.trans hnone', hzero'⟩
    · rcases h'.kept va hva with heq' | ⟨hnone', -⟩
      · exact .inr ⟨hnone, heq'.trans hzero⟩
      · rw [hzero] at hnone'
        cases hnone'
  kernel va hd hva := (h'.kernel va hd hva).trans (h.kernel va hd hva)
  mapping va hd := (h'.mapping va hd).trans (h.mapping va hd)
  freed := h'.freed.trans h.freed

/-- A page table is made. -/
theorem Repr.created (h : Repr k base pd s tables) {t : Word} (hfresh : Fresh k s t)
    (hva : pdNo va < 768) (hzero : s.mem pd (pdNo va) = 0) :
    Effect k base pd s p (s.create pd (pdNo va) t) (t :: tables) where
  repr := h.create hfresh hva hzero
  kept va' _ := by
    unfold Kept
    rw [h.pte_create hfresh]
    by_cases hd : pdNo va' = pdNo va
    · right
      rw [if_pos hd]
      refine ⟨?_, rfl⟩
      unfold pte
      rw [hd, if_pos hzero]
    · rw [if_neg hd]
      exact .inl rfl
  kernel va' hd _ := by
    rw [h.pte_create hfresh, if_neg (by omega)]
  mapping va' hd := by
    rw [h.pte_create hfresh, if_neg (by omega)]
  freed := rfl

/-- What `pagedir_set_page` is called with. -/
structure SetValid (k : Kernel) (s : State) (f : Nat → Option Word) (upage kpage : Word)
    (outcome : Option Word) : Prop where
  upage_aligned : pgOfs upage = 0
  user : isUserVaddr upage = true
  unmapped : f (pgNo upage) = none
  kpage_page : Page kpage
  ram : ((kpage - PHYS_BASE) >>> 12).toNat < k.initRamPages
  pool : k.userPool kpage = true
  distinct : ∀ p, f p ≠ some kpage
  fresh : ∀ t ∈ outcome, Fresh k s t

/-- `pagedir_set_page`, which fails only where a page table would have to be made, and then
changes nothing. -/
theorem Repr.setPage (h : Repr k base pd s tables) (hmaps : Maps k pd s f) {upage kpage : Word}
    {outcome : Option Word} (hvalid : SetValid k s f upage kpage outcome) (writable : Bool) :
    (pagedirSetPage k pd upage kpage writable outcome s = .ok (false, s) ∧ outcome = none) ∨
    ∃ s' tables', pagedirSetPage k pd upage kpage writable outcome s = .ok (true, s') ∧
      Effect k base pd s (pgNo upage) s' tables' ∧
      Maps k pd s' (Function.update f (pgNo upage) (some kpage)) := by
  have hd := isUserVaddr_iff.mp hvalid.user
  have hnotKernel : ∀ {P : Prop}, 768 ≤ pdNo upage → P := fun hge =>
    absurd hd (Nat.not_lt.mpr hge)
  -- from a directory with a page table for `upage` on
  have hwrite : ∀ {s₁ : State} {tables₁ : List Word}, Repr k base pd s₁ tables₁ →
      Maps k pd s₁ f → (hne : s₁.mem pd (pdNo upage) ≠ 0) →
      s₁.mem (addrOf (s₁.mem pd (pdNo upage))) (ptNo upage) &&& PTE_P = 0 ∧
      ∃ w, pteCreateUser kpage writable = .ok w ∧
        Maps k pd (s₁.write (addrOf (s₁.mem pd (pdNo upage))) (ptNo upage) w)
          (Function.update f (pgNo upage) (some kpage)) := by
    intro s₁ tables₁ h₁ hmaps₁ hne
    have hentry := hmaps₁.entry upage hd
    rw [hvalid.unmapped] at hentry
    refine ⟨hentry _ (by unfold pte; rw [if_neg hne]; rfl), ?_⟩
    obtain ⟨w, hw, hpresent, haddr, -⟩ := hvalid.kpage_page.pteCreateUser writable
    refine ⟨w, hw, hmaps₁.change (fun va' _ hva' => (h₁.written hne w hnotKernel).kept va' hva')
      (fun q hq => Function.update_of_ne hq _ _) (fun va' _ hp => ?_) fun a ha => ?_⟩
    · rw [Function.update_self, h₁.pte_write hne, if_pos hp]
      refine ⟨hvalid.kpage_page, hvalid.pool, w, rfl, ?_, haddr⟩
      rw [hpresent]
      decide
    · rw [Function.update_self] at ha
      cases ha
      exact ⟨fun q _ => hvalid.distinct q, upage, hd, rfl⟩
  unfold pagedirSetPage
  rw [hvalid.upage_aligned, hvalid.kpage_page.aligned, hvalid.user, if_neg (by decide),
    if_neg (by decide), hvalid.kpage_page.vtop, ok_bind, if_neg (not_not.mpr hvalid.ram),
    if_neg (Ne.symm h.initPageDir_ne), h.lookup_create hvalid.user hvalid.fresh]
  by_cases hzero : s.mem pd (pdNo upage) = 0
  · rw [if_pos hzero]
    cases outcome with
    | none => exact .inl ⟨rfl, rfl⟩
    | some t =>
        right
        have hfresh := hvalid.fresh t rfl
        have hcreated : Effect k base pd s (pgNo upage) (s.create pd (pdNo upage) t) (t :: tables) :=
          h.created hfresh hd hzero
        have hmem : (s.create pd (pdNo upage) t).mem pd (pdNo upage) = pde t := by
          have hpd : pd ≠ t := fun heq => hfresh.unused (heq ▸ h.pd_mem)
          rw [h.mem_create hfresh hpd, if_pos rfl, Function.update_self]
        have hne : (s.create pd (pdNo upage) t).mem pd (pdNo upage) ≠ 0 := by
          rw [hmem]
          exact pde_ne_zero t
        have hmaps₁ : Maps k pd (s.create pd (pdNo upage) t) f := by
          refine hmaps.change (p := pgNo upage) (fun va' _ hva' => hcreated.kept va' hva')
            (fun _ _ => rfl) (fun va' _ hp => ?_) fun a ha => ?_
          · rw [hvalid.unmapped, h.pte_create hfresh, if_pos (pgNo_eq_iff.mp hp).1]
            intro w hw
            cases hw
            decide
          · rw [hvalid.unmapped] at ha
            cases ha
        obtain ⟨hclear, w, hw, hmaps'⟩ := hwrite hcreated.repr hmaps₁ hne
        have hwritten := hcreated.trans (hcreated.repr.written hne w hnotKernel)
        rw [hmem, hfresh.toPage.addrOf_pde] at hclear hmaps' hwritten
        rw [ok_bind]
        dsimp only
        rw [if_neg (not_not.mpr hclear), hw, ok_bind]
        exact ⟨_, t :: tables, rfl, hwritten, hmaps'⟩
  · right
    obtain ⟨hclear, w, hw, hmaps'⟩ := hwrite h hmaps hzero
    rw [if_neg hzero, ok_bind]
    dsimp only
    rw [if_neg (not_not.mpr hclear), hw, ok_bind]
    exact ⟨_, tables, rfl, h.written hzero w hnotKernel, hmaps'⟩

end Operations

end OsTools.Paging

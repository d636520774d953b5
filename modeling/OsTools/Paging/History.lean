import OsTools.Paging.Destroy
/-!
# OsTools.Paging.History

A directory from `pagedir_create` through any sequence of operations. The history keeps the
frame that was last set for each user page and not cleared since; it is what the directory
shows, and what `pagedir_destroy` frees (`pagedir_history`).

## Proof shape

`Op.after` is the specification: a partial map from page numbers to frames, changed by set
and clear and by nothing else. The directory in memory represents it (`Repr` and `Maps`),
`Repr.exec` is the step lemma with one case for each operation, and `pagedir_history` the
induction over the history. `Done` lists what else a step keeps, above all the kernel's part
of all directories.

The accessed and dirty bits are the exception, and the theorem says so: `pagedir_set_dirty`
and `pagedir_set_accessed` may be called for a page of the kernel, whose page table is
shared, and then the bit changes in every directory (`pagedir_set_dirty_shared`).
-/

namespace OsTools.Paging

/-- An operation. Where a page table may have to be made, `outcome` is what
`palloc_get_page` would return. -/
inductive Op
  | setPage (upage kpage : Word) (writable : Bool) (outcome : Option Word)
  | clearPage (upage : Word)
  | setDirty (vpage : Word) (dirty : Bool)
  | setAccessed (vpage : Word) (accessed : Bool)
  | getPage (uaddr : Word)

/-- What it returns. -/
inductive Out
  | nothing
  | set (success : Bool)
  | page (kpage : Option Word)

/-- The number of the page that it is about. -/
def Op.page : Op → Nat
  | setPage upage _ _ _ => pgNo upage
  | clearPage upage => pgNo upage
  | setDirty vpage _ => pgNo vpage
  | setAccessed vpage _ => pgNo vpage
  | getPage uaddr => pgNo uaddr

/-- The operation on the directory `pd`. -/
def exec (k : Kernel) (pd : Word) (op : Op) (s : State) : Except Panic (Out × State) :=
  match op with
  | .setPage upage kpage writable outcome => do
      let (success, s) ← pagedirSetPage k pd upage kpage writable outcome s
      .ok (.set success, s)
  | .clearPage upage => do
      let s ← pagedirClearPage pd upage s
      .ok (.nothing, s)
  | .setDirty vpage dirty => do
      let s ← pagedirSetDirty pd vpage dirty s
      .ok (.nothing, s)
  | .setAccessed vpage accessed => do
      let s ← pagedirSetAccessed pd vpage accessed s
      .ok (.nothing, s)
  | .getPage uaddr => do
      let kpage ← pagedirGetPage pd uaddr s
      .ok (.page kpage, s)

/-- What the assertions require, and that a frame is mapped once at a time. -/
def Op.Valid (k : Kernel) (s : State) (f : Nat → Option Word) : Op → Prop
  | setPage upage kpage _ outcome => SetValid k s f upage kpage outcome
  | clearPage upage => pgOfs upage = 0 ∧ isUserVaddr upage = true
  | setDirty _ _ => True
  | setAccessed _ _ => True
  | getPage uaddr => isUserVaddr uaddr = true

/-- The frames last set and not cleared, behind the operation. -/
def Op.after (op : Op) (out : Out) (f : Nat → Option Word) : Nat → Option Word :=
  match op, out with
  | .setPage upage kpage _ _, .set true => Function.update f (pgNo upage) (some kpage)
  | .clearPage upage, _ => Function.update f (pgNo upage) none
  | _, _ => f

/-- The states of a directory `pd` that `pagedir_create` makes in the state `s₀`, with the
frames that were last set and not cleared. -/
inductive History (k : Kernel) (s₀ : State) (pd : Word) : State → (Nat → Option Word) → Prop
  | create (hfresh : Fresh k s₀ pd) :
      History k s₀ pd (pagedirCreate k (some pd) s₀).2 fun _ => none
  | exec {s s' : State} {f : Nat → Option Word} {op : Op} {out : Out}
      (h : History k s₀ pd s f) (hvalid : op.Valid k s f)
      (hexec : exec k pd op s = .ok (out, s')) : History k s₀ pd s' (op.after out f)

section History

variable {k : Kernel} {s₀ s s' : State} {pd va : Word} {f : Nat → Option Word}
  {base tables : List Word}

/-- A directory from `pagedir_create` has the page tables of the kernel only. -/
theorem Booted.create (hboot : Booted k s₀) (hfresh : Fresh k s₀ pd) :
    Repr k s₀.taken pd (pagedirCreate k (some pd) s₀).2 [] ∧
      Maps k pd (pagedirCreate k (some pd) s₀).2 fun _ => none := by
  have hipd : k.initPageDir ≠ pd := fun heq => hfresh.unused (heq ▸ hboot.initPageDir)
  have hpd : (pagedirCreate k (some pd) s₀).2.mem pd = s₀.mem k.initPageDir :=
    Function.update_self _ _ _
  have hinit : (pagedirCreate k (some pd) s₀).2.mem k.initPageDir = s₀.mem k.initPageDir :=
    Function.update_of_ne hipd _ _
  refine ⟨⟨rfl, List.nodup_cons.mpr ⟨hfresh.unused, hboot.nodup⟩, fun a ha => ?_,
    hboot.initPageDir, fun d hd hne => ?_, fun d _ _ => by rw [hpd, hinit], ?_, ?_, nofun⟩,
    fun va hva => ?_, nofun, nofun⟩
  · rcases List.mem_cons.mp ha with rfl | ha
    · exact ⟨hfresh.toPage, hfresh.pool⟩
    · exact hboot.page a ha
  · rw [hpd] at hne
    exact absurd (hboot.user d hd) hne
  · rw [hpd]
    exact hboot.kernel
  · rw [hpd]
    exact hboot.inj
  · unfold pte
    rw [hpd, if_pos (hboot.user _ hva)]
    exact nofun

/-- What an operation does to the directory. -/
structure Done (k : Kernel) (base : List Word) (pd : Word) (s : State) (f : Nat → Option Word)
    (op : Op) (out : Out) (s' : State) (tables' : List Word) : Prop where
  effect : Effect k base pd s op.page s' tables'
  maps : Maps k pd s' (op.after out f)
  failed : out = .set false → s' = s

/-- An operation goes through. -/
theorem Repr.exec (h : Repr k base pd s tables) (hmaps : Maps k pd s f) {op : Op}
    (hvalid : op.Valid k s f) : ∃ out s' tables', exec k pd op s = .ok (out, s') ∧
      Done k base pd s f op out s' tables' := by
  cases op with
  | setPage upage kpage writable outcome =>
      rcases h.setPage hmaps hvalid writable with ⟨hset, -⟩ | ⟨s', tables', hset, heffect, hmaps'⟩
      · refine ⟨.set false, s, tables, ?_, h.unchanged, hmaps, fun _ => rfl⟩
        unfold Paging.exec
        dsimp only
        rw [hset, ok_bind]
      · refine ⟨.set true, s', tables', ?_, heffect, hmaps', nofun⟩
        unfold Paging.exec
        dsimp only
        rw [hset, ok_bind]
  | clearPage upage =>
      obtain ⟨s', hclear, heffect, hmaps'⟩ := h.clear hmaps hvalid.1 hvalid.2
      refine ⟨.nothing, s', tables, ?_, heffect, hmaps', nofun⟩
      unfold Paging.exec
      dsimp only
      rw [hclear, ok_bind]
  | setDirty vpage dirty =>
      obtain ⟨s', hset, heffect, hmaps'⟩ := h.set hmaps PTE_D vpage (by decide) dirty
      refine ⟨.nothing, s', tables, ?_, heffect, hmaps', nofun⟩
      unfold Paging.exec pagedirSetDirty
      dsimp only
      rw [hset, ok_bind]
  | setAccessed vpage accessed =>
      obtain ⟨s', hset, heffect, hmaps'⟩ := h.set hmaps PTE_A vpage (by decide) accessed
      refine ⟨.nothing, s', tables, ?_, heffect, hmaps', nofun⟩
      unfold Paging.exec pagedirSetAccessed
      dsimp only
      rw [hset, ok_bind]
  | getPage uaddr =>
      refine ⟨.page ((f (pgNo uaddr)).map fun frame => frame + pgOfs uaddr), s, tables, ?_,
        h.unchanged, hmaps, nofun⟩
      unfold Paging.exec
      dsimp only
      rw [hmaps.getPage h hvalid, ok_bind]

theorem History.repr (hboot : Booted k s₀) (h : History k s₀ pd s f) :
    ∃ tables, Repr k s₀.taken pd s tables ∧ Maps k pd s f := by
  induction h with
  | create hfresh => exact ⟨[], hboot.create hfresh⟩
  | exec _ hvalid hexec ih =>
      obtain ⟨tables, hrepr, hmaps⟩ := ih
      obtain ⟨out, s', tables', hexec', hdone⟩ := hrepr.exec hmaps hvalid
      rw [hexec] at hexec'
      cases hexec'
      exact ⟨tables', hdone.effect.repr, hdone.maps⟩

/-- A kernel address has the same entry in `init_page_dir`. -/
theorem Repr.pte_shared (h : Repr k base pd s tables) (hva : 768 ≤ pdNo va) :
    pte s k.initPageDir va = pte s pd va := by
  unfold pte
  rw [h.shared _ hva (pdNo_lt va)]

end History

/-- In every history of a directory, with any outcomes of the allocations of page tables:
`pagedir_get_page` returns the frame last set and not cleared, plus the offset; no operation
fails an assertion, none changes what is found at other pages or at kernel addresses of
other pages, in this directory or in `init_page_dir`, none changes more of the entry of a
kernel page than whether it has been accessed or written, and a failed `pagedir_set_page`
changes nothing; `pagedir_destroy` frees the frames that are mapped, the page tables and the
directory, each of them once, and nothing else. -/
theorem pagedir_history {k : Kernel} {s₀ s : State} {pd : Word} {f : Nat → Option Word}
    (hboot : Booted k s₀) (h : History k s₀ pd s f) :
    (∀ uaddr, isUserVaddr uaddr = true → pagedirGetPage pd uaddr s =
      .ok ((f (pgNo uaddr)).map fun frame => frame + pgOfs uaddr)) ∧
    (∀ op : Op, op.Valid k s f → ∃ out s', exec k pd op s = .ok (out, s') ∧
      (∀ va, pgNo va ≠ op.page → Same pd s s' va ∧ (isKernelVaddr va = true →
        pte s' pd va = pte s pd va ∧ pte s' k.initPageDir va = pte s k.initPageDir va)) ∧
      (∀ va, isKernelVaddr va = true → mapping (pte s' pd va) = mapping (pte s pd va) ∧
        mapping (pte s' k.initPageDir va) = mapping (pte s k.initPageDir va)) ∧
      (out = .set false → s' = s)) ∧
    ∃ s' tables freed, pagedirDestroy k pd s = .ok s' ∧ s.taken = tables ++ pd :: s₀.taken ∧
      s'.freed = s.freed ++ freed ∧ freed.Nodup ∧
      ∀ a, a ∈ freed ↔ (∃ p, f p = some a) ∨ a ∈ tables ∨ a = pd := by
  obtain ⟨tables, hrepr, hmaps⟩ := h.repr hboot
  refine ⟨fun uaddr huser => hmaps.getPage hrepr huser, fun op hvalid => ?_, ?_⟩
  · obtain ⟨out, s', tables', hexec, hdone⟩ := hrepr.exec hmaps hvalid
    have hrepr' := hdone.effect.repr
    refine ⟨out, s', hexec, fun va hva => ⟨(hdone.effect.kept va hva).same hrepr hrepr',
      fun hkernel => ?_⟩, fun va hkernel => ?_, hdone.failed⟩
    · have hd := isKernelVaddr_iff.mp hkernel
      have hpte := hdone.effect.kernel va hd hva
      exact ⟨hpte, by rw [hrepr'.pte_shared hd, hrepr.pte_shared hd, hpte]⟩
    · have hd := isKernelVaddr_iff.mp hkernel
      have hmapping := hdone.effect.mapping va hd
      exact ⟨hmapping, by rw [hrepr'.pte_shared hd, hrepr.pte_shared hd, hmapping]⟩
  · obtain ⟨s', freed, hdestroy, hfreed, hperm, hnodup⟩ := hrepr.destroy hmaps
    refine ⟨s', tables, freed, hdestroy, hrepr.taken, hfreed, hnodup, fun a => ?_⟩
    rw [hperm.mem_iff, List.mem_append, List.mem_append, List.mem_singleton, hmaps.mem_frames,
      or_assoc]

/-- A kernel with one page table of its own, and a user pool from `0xc0200000` on. -/
def smallKernel : Kernel := ⟨0xc0001000#32, 1024, fun a => decide (0xc0200000#32 ≤ a)⟩

def smallState : State where
  mem page i :=
    if page = 0xc0001000#32 ∧ i = 768 then pde 0xc0002000#32
    else if page = 0xc0002000#32 then BitVec.ofNat 32 (i * 4096) ||| PTE_P ||| PTE_W
    else 0
  taken := [0xc0001000#32, 0xc0002000#32]
  freed := []

theorem booted_small : Booted smallKernel smallState where
  nodup := by decide
  page a ha := by
    rcases List.mem_cons.mp ha with rfl | ha
    · exact ⟨⟨by decide, by decide⟩, by decide⟩
    · rw [List.mem_singleton.mp ha]
      exact ⟨⟨by decide, by decide⟩, by decide⟩
  initPageDir := by decide
  user d hd := if_neg fun h => by omega
  kernel d hge hlt hne := by
    have hd : d = 768 := by
      by_contra hd
      exact hne (if_neg fun h => hd h.2)
    subst hd
    exact ⟨0xc0002000#32, by decide, by decide, rfl⟩
  inj d d' hd hd' heq hne := by
    have hone : ∀ d, smallState.mem smallKernel.initPageDir d ≠ 0 → d = 768 := by
      intro d hne
      by_contra hd
      exact hne (if_neg fun h => hd h.2)
    rw [hone d hne, hone d' (heq ▸ hne)]

/-- The page `0x08048000` is mapped to the frame `0xc0200000`. -/
theorem pagedir_history_one : ∃ s f, History smallKernel smallState 0xc0003000#32 s f ∧
    pagedirGetPage 0xc0003000#32 0x08048123#32 s = .ok (some 0xc0200123#32) := by
  have hfresh : Fresh smallKernel smallState 0xc0003000#32 :=
    ⟨⟨by decide, by decide⟩, by decide, by decide⟩
  have hcreate := History.create hfresh
  have hvalid : Op.Valid smallKernel (pagedirCreate smallKernel (some 0xc0003000#32) smallState).2
      (fun _ => none) (.setPage 0x08048000#32 0xc0200000#32 true (some 0xc0004000#32)) := by
    refine ⟨by decide, by decide, rfl, ⟨by decide, by decide⟩, by decide, by decide, nofun, ?_⟩
    intro t ht
    cases ht
    exact ⟨⟨by decide, by decide⟩, by decide, by decide⟩
  have hhistory := @History.exec _ _ _ _ _ _ _ (.set true) hcreate hvalid rfl
  refine ⟨_, _, hhistory, ?_⟩
  rw [(pagedir_history booted_small hhistory).1 0x08048123#32 (by decide)]
  rfl

/-- `pagedir_set_dirty` on a page of the kernel, of which no assertion says that it must be a
user's: the page is dirty from then on in every directory. -/
theorem pagedir_set_dirty_shared : ∃ s f s', History smallKernel smallState 0xc0003000#32 s f ∧
    exec smallKernel 0xc0003000#32 (.setDirty 0xc0005000#32 true) s = .ok (.nothing, s') ∧
    pagedirIsDirty smallKernel.initPageDir 0xc0005000#32 s = .ok false ∧
    pagedirIsDirty smallKernel.initPageDir 0xc0005000#32 s' = .ok true := by
  have hfresh : Fresh smallKernel smallState 0xc0003000#32 :=
    ⟨⟨by decide, by decide⟩, by decide, by decide⟩
  exact ⟨_, _, _, .create hfresh, rfl, rfl, rfl⟩

end OsTools.Paging

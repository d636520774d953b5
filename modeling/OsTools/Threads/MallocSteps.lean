import OsTools.Threads.FreeBlocks
/-!
# OsTools.Threads.MallocSteps

What `malloc` and `free` do to memory, one change of the books at a time: taking a
block off its free list (`Stored.take`), putting one back (`Stored.give`), setting up
the header of a new arena (`Stored.header_new`) and its blocks (`Stored.fill_arena`),
and unlinking the blocks of an unused one (`Stored.unlink`).

## Proof shape

`Stored m descs base arenas live` says that memory holds the books. Between two states of
the books there are small differences only, and each lemma here is about one of them.
`Stored.move` is the common part of taking and giving: one free list and one `free_cnt` are
brought from the books `live` to the books `live'`, and everything else is at other
addresses. The bytes that may have changed are those of the free list for the books `low`,
in which a block is free if it is so before or behind the change.

An arena comes into being in two steps, its header (`Stored.header_new`) and its blocks
(`Stored.fill_arena`), and goes in two (`Stored.unlink`, `Stored.drop_pages`).
-/

namespace OsTools.Threads

open Kernel Vm Mem

variable {m m' : Mem} {descs base k p x n v : Nat} {arenas : List Arena} {live : List Block}
  {a c : Arena} {P : Nat → Prop}

theorem Books.mono {live' : List Block} (h : Books base arenas live)
    (hsub : live'.Sublist live) : Books base arenas live' :=
  ⟨h.ok, h.apart, h.top, fun b hb => h.housed b (hsub.subset hb), h.nodup.sublist (hsub.map _)⟩

theorem release_sublist (p : Nat) (live : List Block) : (release p live).Sublist live :=
  List.filter_sublist

/-- `free_cnt` fits into its field. -/
theorem Books.cntOf_lt (h : Books base arenas live) (ha : a ∈ arenas) :
    cntOf base live a < 2 ^ 32 := by
  have htop := h.top a ha
  unfold cntOf
  cases a.desc with
  | none => dsimp only; omega
  | some k =>
      have h₁ := freeCnt_le base live a k
      have h₂ := blocksOf_le k
      dsimp only
      omega

theorem descAddr_lt (hsite : Site descs base) (hbooks : Books base arenas live) (ha : a ∈ arenas) :
    a.descAddr descs < 2 ^ 32 := by
  have htop := hbooks.top a ha
  have hbelow := hsite.below
  have hok := hbooks.ok a ha
  unfold Arena.descAddr
  cases hd : a.desc with
  | none => exact Nat.two_pow_pos 32
  | some k =>
      have hk : k < 7 := (hok.small k hd).1
      unfold Arena.addr at htop
      unfold descPtr DESC_SIZE DESC_MAX at *
      dsimp only
      omega

theorem setArenaFreeCnt_sameBut (m : Mem) (base : Nat) (a : Arena) (v : Nat) :
    m.SameBut (setArenaFreeCnt m (a.addr base) v) (a.InHeader base) :=
  (SameBut.blit m _ 4 _).mono fun x hx => ⟨by omega, by omega⟩

theorem HeaderOk.setFreeCnt (h : HeaderOk m descs base a n) (hv : v < 2 ^ 32) :
    HeaderOk (setArenaFreeCnt m (a.addr base) v) descs base a v := by
  refine ⟨?_, ?_, load_store hv⟩
  · exact (load_blit_of_disjoint (by omega)).trans h.magic
  · exact (load_blit_of_disjoint (by omega)).trans h.desc

theorem setArena_sameBut (m : Mem) (base : Nat) (a : Arena) (desc v : Nat) :
    m.SameBut (setArena m (a.addr base) desc v) (a.InHeader base) :=
  (((SameBut.blit m _ 4 _).mono fun x hx => ⟨by omega, by omega⟩).trans
    ((SameBut.blit _ _ 4 _).mono fun x hx => ⟨by omega, by omega⟩)).trans
    (setArenaFreeCnt_sameBut _ base a v)

theorem setArena_headerOk (hdesc : a.descAddr descs < 2 ^ 32) (hv : v < 2 ^ 32) :
    HeaderOk (setArena m (a.addr base) (a.descAddr descs) v) descs base a v := by
  refine ⟨?_, ?_, load_store hv⟩
  · refine (load_blit_of_disjoint (by omega)).trans ((load_blit_of_disjoint (by omega)).trans ?_)
    exact load_store (by decide)
  · exact (load_blit_of_disjoint (by omega)).trans (load_store hdesc)

/-- A change outside the allocator's bytes. -/
theorem Stored.keep (h : Stored m descs base arenas live) (hbooks : Books base arenas live)
    (hm : m.SameBut m' P)
    (hfield : ∀ k, k < DESC_CNT → ∀ x, descPtr descs k ≤ x → x < descPtr descs k + 8 → ¬ P x)
    (hheader : ∀ a ∈ arenas, ∀ x, a.InHeader base x → ¬ P x)
    (hfree : ∀ k, k < DESC_CNT → ∀ x, FreeBytes descs base arenas live k x → ¬ P x) :
    Stored m' descs base arenas live :=
  ⟨h.fields.keep hm hfield, fun a ha => (h.header a ha).keep hm (hheader a ha), fun k hk =>
    (h.lists k hk).keep hm fun x hx => hfree k hk x
      (listBytes_freeBytes hbooks (fun _ hb => hb) hx)⟩

/-- A change of the bytes of a block in use. -/
theorem Stored.keep_block (h : Stored m descs base arenas live) (hsite : Site descs base)
    (hbooks : Books base arenas live) (ha : a ∈ arenas) (hp : a.IsBlock base p)
    (hlive : p ∈ addrs live) (hm : m.SameBut m' (a.InBlock p)) :
    Stored m' descs base arenas live := by
  have hbounds := (hbooks.ok a ha).block_bounds hp
  have hbelow := hsite.below
  refine h.keep hbooks hm (fun k hk x _ hhi hx => ?_) (fun c hc x hx hin => ?_)
    fun k hk x hx hin => ?_
  · have hk : k < 7 := hk
    unfold Arena.InBlock at hx
    unfold Arena.addr at hbounds
    unfold descPtr DESC_SIZE DESC_MAX at *
    omega
  · exact hbooks.header_block ha hc hp hin hx
  · rcases hx with hx | ⟨c, hc, -, b, hb, hfree, hx⟩
    · have hk : k < 7 := hk
      unfold Arena.InBlock at hin
      unfold Arena.addr at hbounds
      unfold freeListAt descFreeList descPtr DESC_SIZE DESC_MAX at *
      omega
    · obtain ⟨-, rfl⟩ := hbooks.block_unique ha hc hp hb hin hx
      exact hfree hlive

/-- The counts of the other arenas. -/
theorem Gains.cntOf_eq {live' : List Block} (h : Gains live live' p) (hbooks : Books base arenas live)
    (ha : a ∈ arenas) (hp : a.IsBlock base p) (hc : c ∈ arenas) (hne : c ≠ a) :
    cntOf base live' c = cntOf base live c := by
  unfold cntOf
  cases hd : c.desc with
  | none => rfl
  | some k =>
      refine h.freeCnt_of_ne fun j hj heq => hne ?_
      have hslot : c.IsBlock base p := (Arena.isBlock_iff hd).mpr ⟨j, hj, heq.symm⟩
      have h₁ := (hbooks.ok a ha).cap_ge
      have h₂ := (hbooks.ok c hc).cap_ge
      exact (hbooks.block_unique (x := p) hc ha hslot hp ⟨by omega, by omega⟩
        ⟨by omega, by omega⟩).1

/-- The free blocks of the other descriptors. -/
theorem Gains.freeBlock_other {live' : List Block} {k' : Nat} (h : Gains live live' p)
    (hbooks : Books base arenas live) (ha : a ∈ arenas) (hp : a.IsBlock base p)
    (hdesc : a.desc = some k) (hne : k' ≠ k) :
    FreeBlock base arenas live' k' x ↔ FreeBlock base arenas live k' x := by
  rw [h.freeBlock_iff]
  refine ⟨fun hx => hx.1, fun hx => ⟨hx, fun heq => ?_⟩⟩
  obtain ⟨⟨c, hc, hdesc', hx⟩, -⟩ := hx
  subst heq
  have h₁ := (hbooks.ok a ha).cap_ge
  have h₂ := (hbooks.ok c hc).cap_ge
  obtain ⟨rfl, -⟩ := hbooks.block_unique (x := x) hc ha hx hp ⟨by omega, by omega⟩
    ⟨by omega, by omega⟩
  exact hne (Option.some.inj (hdesc'.symm.trans hdesc))

/-- One free list and the count of one arena are brought from the books `live` to the
books `live'`. The bytes changed so far are those of the free list as it is when the
blocks `low` are in use. -/
theorem Stored.move {low live' : List Block} (hst : Stored m descs base arenas live)
    (hsite : Site descs base) (hbooks : Books base arenas low) (hk : k < DESC_CNT)
    (ha : a ∈ arenas) (hlow : ∀ x, x ∈ addrs low → x ∈ addrs live)
    (hlow' : ∀ x, x ∈ addrs low → x ∈ addrs live')
    (hm : m.SameBut m' (FreeBytes descs base arenas low k))
    (hlist : Holds m' (freeListAt descs k) (FreeBlock base arenas live' k))
    (hcnt : ∀ c ∈ arenas, c ≠ a → cntOf base live' c = cntOf base live c)
    (hother : ∀ k', k' ≠ k → ∀ x,
      FreeBlock base arenas live' k' x ↔ FreeBlock base arenas live k' x)
    (hv : cntOf base live' a < 2 ^ 32) :
    Stored (setArenaFreeCnt m' (a.addr base) (cntOf base live' a)) descs base arenas live' ∧
      SameBlocks low m (setArenaFreeCnt m' (a.addr base) (cntOf base live' a)) := by
  have hheader : ∀ c ∈ arenas, HeaderOk m' descs base c (cntOf base live c) := fun c hc =>
    (hst.header c hc).keep hm fun x hx hfree => hfree.not_header hsite hbooks hk hc hx
  have hfields : FieldsOk m' descs := hst.fields.keep hm fun k' hk' x hlo hhi hfree =>
    hfree.not_field hsite hbooks hk hk' hlo hhi
  have hset := setArenaFreeCnt_sameBut m' base a (cntOf base live' a)
  have hlists : ∀ k', k' < DESC_CNT → Holds m' (freeListAt descs k')
      (FreeBlock base arenas live' k') := by
    intro k' hk'
    by_cases hkk : k' = k
    · rw [hkk]
      exact hlist
    · refine ((hst.lists k' hk').keep hm fun x hx hfree => ?_).congr fun x => (hother k' hkk x).symm
      refine hfree.not_other hsite hbooks hk hk' (Ne.symm hkk) ?_
      exact listBytes_freeBytes hbooks (fun b hb => ⟨hb.1, fun hin => hb.2 (hlow b hin)⟩) hx
  have hblocks : SameBlocks low m (setArenaFreeCnt m' (a.addr base) (cntOf base live' a)) :=
    (SameBlocks.of_sameBut hm fun b hb x hlo hhi hfree =>
      hfree.not_live hsite hbooks hk hb hlo hhi).trans
      (SameBlocks.of_sameBut hset fun b hb x hlo hhi hx => header_not_live hbooks ha hx hb hlo hhi)
  refine ⟨⟨hfields.keep hset fun k' hk' x _ hhi hx => header_not_field hsite hk' hx hhi,
    fun c hc => ?_, fun k' hk' => ?_⟩, hblocks⟩
  · by_cases hca : c = a
    · rw [hca]
      exact (hheader a ha).setFreeCnt hv
    · rw [hcnt c hc hca]
      exact (hheader c hc).keep hset fun x hx hx' => header_not_header hbooks hc ha hca hx hx'
  · refine (hlists k' hk').keep hset fun x hx hin => ?_
    have hfree : FreeBytes descs base arenas low k' x := by
      exact listBytes_freeBytes hbooks (fun b hb => ⟨hb.1, fun hin => hb.2 (hlow' b hin)⟩) hx
    exact hfree.not_header hsite hbooks hk' ha hin

theorem addrs_cons (b : Block) (live : List Block) : ∀ x, x ∈ addrs live → x ∈ addrs (b :: live) :=
  fun _ hx => List.mem_cons_of_mem _ hx

/-- `malloc` takes a block off the free list of descriptor number `k`. -/
theorem Stored.take (hst : Stored m descs base arenas live) (hsite : Site descs base)
    (hbooks : Books base arenas live) (hk : k < DESC_CNT)
    (hne : ∃ b, FreeBlock base arenas live k b) (size : Nat) :
    ∃ m₁ b a, listPopFront m (freeListAt descs k) = .ok (m₁, b) ∧ a ∈ arenas ∧ a.desc = some k ∧
      a.IsBlock base b ∧ b ∉ addrs live ∧ blockToArena m₁ b = .ok (a.addr base) ∧
      Stored (setArenaFreeCnt m₁ (a.addr base) (sub32 (arenaFreeCnt m₁ (a.addr base)) 1)) descs
        base arenas (⟨b, size⟩ :: live) ∧
      SameBlocks live m
        (setArenaFreeCnt m₁ (a.addr base) (sub32 (arenaFreeCnt m₁ (a.addr base)) 1)) := by
  obtain ⟨m₁, b, hpop, ⟨⟨a, ha, hdesc, hb⟩, hfree⟩, hholds, hsame⟩ :=
    listPopFront_spec (hst.lists k hk) hne
  have hsame : m.SameBut m₁ (FreeBytes descs base arenas live k) :=
    hsame.mono fun x hx => listBytes_freeBytes hbooks (fun _ h => h) hx
  have hgains : Gains live (⟨b, size⟩ :: live) b := gains_cons hfree
  have hheader : HeaderOk m₁ descs base a (cntOf base live a) :=
    (hst.header a ha).keep hsame fun x hx hfree => hfree.not_header hsite hbooks hk ha hx
  have hfields : FieldsOk m₁ descs := hst.fields.keep hsame fun k' hk' x hlo hhi hfree =>
    hfree.not_field hsite hbooks hk hk' hlo hhi
  obtain ⟨j, hj, hslot⟩ := (Arena.isBlock_iff hdesc).mp hb
  have hcnt : cntOf base live a = cntOf base (⟨b, size⟩ :: live) a + 1 := by
    unfold cntOf
    rw [hdesc]
    exact hgains.freeCnt_eq hj hslot
  have hlt := hbooks.cntOf_lt ha
  have hv : sub32 (arenaFreeCnt m₁ (a.addr base)) 1 = cntOf base (⟨b, size⟩ :: live) a := by
    rw [hheader.freeCnt]
    unfold sub32
    omega
  obtain ⟨hst', hblocks⟩ := hst.move hsite hbooks hk ha (fun _ hx => hx) (addrs_cons _ live) hsame
    (hholds.congr fun x => hgains.freeBlock_iff.symm)
    (fun c hc hca => hgains.cntOf_eq hbooks ha hb hc hca)
    (fun k' hkk x => hgains.freeBlock_other hbooks ha hb hdesc hkk) (by omega)
  refine ⟨m₁, b, a, hpop, ha, hdesc, hb, hfree,
    blockToArena_eq hsite hbooks ha hheader hfields hb, ?_⟩
  rw [hv]
  exact ⟨hst', hblocks⟩

/-- `free` puts a block back: the list has one block more, the counter in the header of its
arena is one more, and both are what `Stored` says for the blocks that are live without it. -/
theorem Stored.give (hst : Stored m descs base arenas live) (hsite : Site descs base)
    (hbooks : Books base arenas live) (hk : k < DESC_CNT) (ha : a ∈ arenas)
    (hdesc : a.desc = some k) (hp : a.IsBlock base p) (hlive : p ∈ addrs live) :
    ∃ m₁, listPushFront m (freeListAt descs k) p = .ok m₁ ∧
      Stored (setArenaFreeCnt m₁ (a.addr base) ((arenaFreeCnt m₁ (a.addr base) + 1) % 2 ^ 32))
        descs base arenas (release p live) ∧
      SameBlocks (release p live) m
        (setArenaFreeCnt m₁ (a.addr base) ((arenaFreeCnt m₁ (a.addr base) + 1) % 2 ^ 32)) := by
  have hbooks' : Books base arenas (release p live) := hbooks.mono (release_sublist p live)
  have hgains : Gains (release p live) live p := gains_release hlive
  have hblocks : ∀ x, FreeBlock base arenas live k x ∨ x = p →
      FreeBlock base arenas (release p live) k x := by
    rintro x (hx | rfl)
    · exact (hgains.freeBlock_iff.mp hx).1
    · exact ⟨⟨a, ha, hdesc, hp⟩, hgains.1⟩
  obtain ⟨m₁, hpush, hholds, hsame⟩ := listPushFront_spec (hst.lists k hk)
    (apartFrom_slot hsite hbooks hk ha hp (fun _ h => h) fun h => h.2 hlive)
    (cell_bounds hbooks ha hp)
  have hsame : m.SameBut m₁ (FreeBytes descs base arenas (release p live) k) :=
    hsame.mono fun x hx => listBytes_freeBytes hbooks' hblocks hx
  have hheader : HeaderOk m₁ descs base a (cntOf base live a) :=
    (hst.header a ha).keep hsame fun x hx hfree => hfree.not_header hsite hbooks' hk ha hx
  obtain ⟨j, hj, hslot⟩ := (Arena.isBlock_iff hdesc).mp hp
  have hcnt : cntOf base (release p live) a = cntOf base live a + 1 := by
    unfold cntOf
    rw [hdesc]
    exact hgains.freeCnt_eq hj hslot
  have hlt := hbooks'.cntOf_lt ha
  have hv : (arenaFreeCnt m₁ (a.addr base) + 1) % 2 ^ 32 = cntOf base (release p live) a := by
    rw [hheader.freeCnt]
    omega
  refine ⟨m₁, hpush, ?_⟩
  rw [hv]
  refine hst.move hsite hbooks' hk ha (fun x hx => (mem_addrs_release.mp hx).1) (fun _ hx => hx)
    hsame (hholds.congr fun x => ?_) (fun c hc hca => (hgains.cntOf_eq hbooks' ha hp hc hca).symm)
    (fun k' hkk x => (hgains.freeBlock_other hbooks' ha hp hdesc hkk).symm) hlt
  refine ⟨hblocks x, fun hx => ?_⟩
  by_cases hxp : x = p
  · exact Or.inr hxp
  · exact Or.inl (hgains.freeBlock_iff.mpr ⟨hx, hxp⟩)

/-! ### Arenas that come and go -/

theorem Books.not_mem (h : Books base (a :: arenas) live) : a ∉ arenas := by
  intro ha
  have happ := (List.pairwise_cons.mp h.apart).1 a ha
  have hpos := (h.ok a List.mem_cons_self).pos
  unfold Arena.Apart at happ
  omega

theorem Books.arenas_nodup (h : Books base arenas live) : arenas.Nodup := by
  refine h.apart.imp_of_mem fun {a c} ha _ hac heq => ?_
  have hpos := (h.ok a ha).pos
  rw [heq] at hac hpos
  unfold Arena.Apart at hac
  omega

theorem Books.erase (h : Books base arenas live) (a : Arena)
    (hunused : ∀ b, a.IsBlock base b → b ∉ addrs live) : Books base (arenas.erase a) live := by
  refine ⟨fun c hc => h.ok c (List.mem_of_mem_erase hc), h.apart.sublist List.erase_sublist,
    fun c hc => h.top c (List.mem_of_mem_erase hc), fun b hb => ?_, h.nodup⟩
  obtain ⟨c, hc, hblock, hcap⟩ := h.housed b hb
  refine ⟨c, (List.mem_erase_of_ne fun heq => ?_).mpr hc, hblock, hcap⟩
  rw [heq] at hblock
  exact hunused b.addr hblock (List.mem_map.mpr ⟨b, hb, rfl⟩)

/-- The header of a new arena is set up. -/
theorem Stored.header_new (hst : Stored m descs base arenas live) (hsite : Site descs base)
    (hold : Books base arenas live) (hbooks : Books base (a :: arenas) live) (hn : n < 2 ^ 32) :
    Stored (setArena m (a.addr base) (a.descAddr descs) n) descs base arenas live ∧
      HeaderOk (setArena m (a.addr base) (a.descAddr descs) n) descs base a n ∧
      SameBlocks live m (setArena m (a.addr base) (a.descAddr descs) n) := by
  have hset := setArena_sameBut m base a (a.descAddr descs) n
  refine ⟨hst.keep hold hset (fun k hk x _ hhi hx => header_not_field hsite hk hx hhi)
    (fun c hc x hx hx' => ?_) (fun k hk x hx hx' => ?_),
    setArena_headerOk (descAddr_lt hsite hbooks List.mem_cons_self) hn,
    SameBlocks.of_sameBut hset fun b hb x hlo hhi hx =>
      header_not_live hbooks List.mem_cons_self hx hb hlo hhi⟩
  · refine header_not_header hbooks (List.mem_cons_of_mem _ hc) List.mem_cons_self ?_ hx hx'
    rintro rfl
    exact hbooks.not_mem hc
  · have hfree : FreeBytes descs base (a :: arenas) live k x := by
      rcases hx with hx | ⟨c, hc, hrest⟩
      · exact Or.inl hx
      · exact Or.inr ⟨c, List.mem_cons_of_mem _ hc, hrest⟩
    exact hfree.not_header hsite hbooks hk List.mem_cons_self hx'

theorem freeBlock_cons_of_ne {k' : Nat} (hne : ∀ k, a.desc = some k → k ≠ k') :
    FreeBlock base (a :: arenas) live k' x ↔ FreeBlock base arenas live k' x := by
  constructor
  · rintro ⟨⟨c, hc, hdesc, hx⟩, hfree⟩
    rcases List.mem_cons.mp hc with rfl | hc
    · exact absurd rfl (hne k' hdesc)
    · exact ⟨⟨c, hc, hdesc, hx⟩, hfree⟩
  · rintro ⟨⟨c, hc, hdesc, hx⟩, hfree⟩
    exact ⟨⟨c, List.mem_cons_of_mem _ hc, hdesc, hx⟩, hfree⟩

/-- A big block. -/
theorem Stored.big (hst : Stored m descs base arenas live)
    (hbooks : Books base (a :: arenas) live) (hdesc : a.desc = none)
    (hhead : HeaderOk m descs base a a.pages) (hfree : a.addr base + 12 ∉ addrs live)
    (size : Nat) : Stored m descs base (a :: arenas) (⟨a.addr base + 12, size⟩ :: live) := by
  have hgains : Gains live (⟨a.addr base + 12, size⟩ :: live) (a.addr base + 12) :=
    gains_cons hfree
  have hblock : a.IsBlock base (a.addr base + 12) := by
    unfold Arena.IsBlock
    rw [hdesc]
  refine ⟨hst.fields, fun c hc => ?_, fun k hk => (hst.lists k hk).congr fun x => ?_⟩
  · rcases List.mem_cons.mp hc with rfl | hc'
    · unfold cntOf
      rw [hdesc]
      exact hhead
    · have hne : c ≠ a := fun heq => hbooks.not_mem (heq ▸ hc')
      rw [hgains.cntOf_eq hbooks List.mem_cons_self hblock hc hne]
      exact hst.header c hc'
  · rw [hgains.freeBlock_iff, freeBlock_cons_of_ne fun k hk => by rw [hdesc] at hk; cases hk]
    refine ⟨fun hx => ⟨hx, fun heq => ?_⟩, fun hx => hx.1⟩
    obtain ⟨⟨c, hc, -, hx⟩, -⟩ := hx
    subst heq
    have h₁ := (hbooks.ok a List.mem_cons_self).cap_ge
    have h₂ := (hbooks.ok c (List.mem_cons_of_mem _ hc)).cap_ge
    obtain ⟨rfl, -⟩ := hbooks.block_unique (x := a.addr base + 12) (List.mem_cons_of_mem _ hc)
      List.mem_cons_self hx hblock ⟨by omega, by omega⟩ ⟨by omega, by omega⟩
    exact hbooks.not_mem hc

/-- All blocks of a new arena are put on the free list. Those of other arenas that are free
stay on it, and its header says that all of its own are free. -/
theorem Stored.fill_arena (hst : Stored m descs base arenas live) (hsite : Site descs base)
    (hbooks : Books base (a :: arenas) live) (hk : k < DESC_CNT) (hdesc : a.desc = some k)
    (hhead : HeaderOk m descs base a (blocksOf k))
    (hunused : ∀ b, a.IsBlock base b → b ∉ addrs live) :
    ∃ m', pushBlocks (descPtr descs k) (a.addr base) (blocksOf k) 0 m = .ok m' ∧
      Stored m' descs base (a :: arenas) live ∧ SameBlocks live m m' := by
  have hslots : ∀ j, j < blocksOf k → a.slot base k j ∉ addrs live := fun j hj =>
    hunused _ ((Arena.isBlock_iff hdesc).mpr ⟨j, hj, rfl⟩)
  have hmono : ∀ x, FreeBlock base arenas live k x → FreeBlock base (a :: arenas) live k x := by
    rintro x ⟨⟨c, hc, hrest⟩, hfree⟩
    exact ⟨⟨c, List.mem_cons_of_mem _ hc, hrest⟩, hfree⟩
  obtain ⟨m', hloop, hholds, hsame⟩ := pushBlocks_spec hsite hbooks hk List.mem_cons_self hdesc
    hhead hst.fields hslots (i := 0) (Nat.le_of_eq (Nat.zero_add _)) (hst.lists k hk) hmono
    fun j _ hj hx => by
      obtain ⟨⟨c, hc, -, hx⟩, -⟩ := hx
      have h₁ := (hbooks.ok a List.mem_cons_self).cap_ge
      have h₂ := (hbooks.ok c (List.mem_cons_of_mem _ hc)).cap_ge
      obtain ⟨rfl, -⟩ := hbooks.block_unique (x := a.slot base k j) (List.mem_cons_of_mem _ hc)
        List.mem_cons_self hx ((Arena.isBlock_iff hdesc).mpr ⟨j, by omega, rfl⟩)
        ⟨by omega, by omega⟩ ⟨by omega, by omega⟩
      exact hbooks.not_mem hc
  refine ⟨m', hloop, ⟨hst.fields.keep hsame fun k' hk' x hlo hhi hfree =>
      hfree.not_field hsite hbooks hk hk' hlo hhi, fun c hc => ?_, fun k' hk' => ?_⟩,
    SameBlocks.of_sameBut hsame fun b hb x hlo hhi hfree =>
      hfree.not_live hsite hbooks hk hb hlo hhi⟩
  · have hkeep : ∀ n, HeaderOk m descs base c n → HeaderOk m' descs base c n := fun n hn =>
      hn.keep hsame fun x hx hfree => hfree.not_header hsite hbooks hk hc hx
    rcases List.mem_cons.mp hc with rfl | hc'
    · refine hkeep _ ?_
      unfold cntOf
      rw [hdesc]
      dsimp only
      rw [freeCnt_eq_blocksOf.mpr hslots]
      exact hhead
    · exact hkeep _ (hst.header c hc')
  · by_cases hkk : k' = k
    · subst hkk
      refine hholds.congr fun x => ⟨?_, ?_⟩
      · rintro (hx | ⟨j, -, hj, rfl⟩)
        · exact hmono x hx
        · exact ⟨⟨a, List.mem_cons_self, hdesc, (Arena.isBlock_iff hdesc).mpr ⟨j, by omega, rfl⟩⟩,
            hslots j (by omega)⟩
      · rintro ⟨⟨c, hc, hdesc', hx⟩, hfree⟩
        rcases List.mem_cons.mp hc with rfl | hc
        · obtain ⟨j, hj, rfl⟩ := (Arena.isBlock_iff hdesc).mp hx
          exact Or.inr ⟨j, Nat.zero_le _, by omega, rfl⟩
        · exact Or.inl ⟨⟨c, hc, hdesc', hx⟩, hfree⟩
    · refine ((hst.lists k' hk').keep hsame fun x hx hfree => ?_).congr fun x =>
        (freeBlock_cons_of_ne fun l hl => ?_).symm
      · refine hfree.not_other hsite hbooks hk hk' (Ne.symm hkk) ?_
        refine listBytes_freeBytes hbooks (fun b hb => ?_) hx
        obtain ⟨⟨c, hc, hrest⟩, hfree⟩ := hb
        exact ⟨⟨c, List.mem_cons_of_mem _ hc, hrest⟩, hfree⟩
      · rw [hdesc] at hl
        exact fun heq => hkk (heq.symm.trans (Option.some.inj hl).symm)

/-- The free blocks once an arena is gone. -/
theorem freeBlock_erase (hbooks : Books base arenas live) (ha : a ∈ arenas) :
    FreeBlock base (arenas.erase a) live k x ↔
      FreeBlock base arenas live k x ∧ ¬ (a.desc = some k ∧ a.IsBlock base x) := by
  constructor
  · rintro ⟨⟨c, hc, hdesc, hx⟩, hfree⟩
    obtain ⟨hne, hc⟩ := hbooks.arenas_nodup.mem_erase_iff.mp hc
    refine ⟨⟨⟨c, hc, hdesc, hx⟩, hfree⟩, fun ⟨_, hx'⟩ => hne ?_⟩
    have h₁ := (hbooks.ok a ha).cap_ge
    have h₂ := (hbooks.ok c hc).cap_ge
    exact (hbooks.block_unique (x := x) hc ha hx hx' ⟨by omega, by omega⟩ ⟨by omega, by omega⟩).1
  · rintro ⟨⟨⟨c, hc, hdesc, hx⟩, hfree⟩, hno⟩
    refine ⟨⟨c, (List.mem_erase_of_ne fun heq => hno ?_).mpr hc, hdesc, hx⟩, hfree⟩
    rw [← heq]
    exact ⟨hdesc, hx⟩

/-- The blocks of an unused arena are taken off the free list. -/
theorem Stored.unlink (hst : Stored m descs base arenas live) (hsite : Site descs base)
    (hbooks : Books base arenas live) (hk : k < DESC_CNT) (ha : a ∈ arenas)
    (hdesc : a.desc = some k) (hunused : ∀ b, a.IsBlock base b → b ∉ addrs live) :
    ∃ m', removeBlocks (a.addr base) (blocksOf k) 0 m = .ok m' ∧
      Stored m' descs base (arenas.erase a) live ∧ SameBlocks live m m' := by
  have hslot : ∀ j, j < blocksOf k → a.IsBlock base (a.slot base k j) := fun j hj =>
    (Arena.isBlock_iff hdesc).mpr ⟨j, hj, rfl⟩
  obtain ⟨m', hloop, hholds, hsame⟩ := removeBlocks_spec hsite hbooks hk ha hdesc
    (hst.header a ha) hst.fields (i := 0) (Nat.le_of_eq (Nat.zero_add _)) (hst.lists k hk)
    (fun _ hx => hx) fun j _ hj =>
      ⟨⟨a, ha, hdesc, hslot j (by omega)⟩, hunused _ (hslot j (by omega))⟩
  refine ⟨m', hloop, ⟨hst.fields.keep hsame fun k' hk' x hlo hhi hfree =>
      hfree.not_field hsite hbooks hk hk' hlo hhi, fun c hc => ?_, fun k' hk' => ?_⟩,
    SameBlocks.of_sameBut hsame fun b hb x hlo hhi hfree =>
      hfree.not_live hsite hbooks hk hb hlo hhi⟩
  · have hc := List.mem_of_mem_erase hc
    exact (hst.header c hc).keep hsame fun x hx hfree => hfree.not_header hsite hbooks hk hc hx
  · by_cases hkk : k' = k
    · subst hkk
      refine hholds.congr fun x => ?_
      rw [freeBlock_erase hbooks ha]
      refine and_congr_right fun _ => ⟨fun hno ⟨_, hx⟩ => ?_, fun hno j _ hj heq => ?_⟩
      · obtain ⟨j, hj, heq⟩ := (Arena.isBlock_iff hdesc).mp hx
        exact hno j (Nat.zero_le _) (by omega) heq
      · rw [heq] at hno
        exact hno ⟨hdesc, hslot j (by omega)⟩
    · refine ((hst.lists k' hk').keep hsame fun x hx hfree => ?_).congr fun x => ?_
      · exact hfree.not_other hsite hbooks hk hk' (Ne.symm hkk)
          (listBytes_freeBytes hbooks (fun _ hb => hb) hx)
      · rw [freeBlock_erase hbooks ha]
        exact ⟨fun hx => ⟨hx, fun h => hkk (Option.some.inj (h.1.symm.trans hdesc))⟩,
          fun hx => hx.1⟩

/-- A big block is not in use any more. -/
theorem Stored.unbig (hst : Stored m descs base arenas live) (hbooks : Books base arenas live)
    (ha : a ∈ arenas) (hdesc : a.desc = none) (hp : a.IsBlock base p) (hlive : p ∈ addrs live) :
    Stored m descs base (arenas.erase a) (release p live) := by
  have hbooks' := hbooks.mono (release_sublist p live)
  have hgains := gains_release hlive
  refine ⟨hst.fields, fun c hc => ?_, fun k hk => (hst.lists k hk).congr fun x => ?_⟩
  · obtain ⟨hne, hc⟩ := hbooks.arenas_nodup.mem_erase_iff.mp hc
    rw [← hgains.cntOf_eq hbooks' ha hp hc hne]
    exact hst.header c hc
  · rw [freeBlock_erase hbooks' ha, hgains.freeBlock_iff]
    refine and_congr_right fun hx => ⟨fun _ h => ?_, fun _ heq => ?_⟩
    · rw [hdesc] at h
      cases h.1
    · obtain ⟨⟨c, hc, hdesc', hx⟩, -⟩ := hx
      subst heq
      have h₁ := (hbooks.ok a ha).cap_ge
      have h₂ := (hbooks.ok c hc).cap_ge
      obtain ⟨rfl, -⟩ := hbooks.block_unique (x := x) hc ha hx hp ⟨by omega, by omega⟩
        ⟨by omega, by omega⟩
      rw [hdesc] at hdesc'
      cases hdesc'

/-- The pages of an arena that is gone change. -/
theorem Stored.drop_pages (hst : Stored m descs base (arenas.erase a) live)
    (hsite : Site descs base) (hbooks : Books base arenas live) (ha : a ∈ arenas)
    (hunused : ∀ b, a.IsBlock base b → b ∉ addrs live)
    (hm : m.SameBut m' fun x => a.addr base ≤ x ∧ x < a.addr base + 4096 * a.pages) :
    Stored m' descs base (arenas.erase a) live ∧ SameBlocks live m m' := by
  have hbelow := hsite.below
  have hgone : ∀ c ∈ arenas.erase a, c ∈ arenas ∧ c ≠ a := fun c hc =>
    (hbooks.arenas_nodup.mem_erase_iff.mp hc).symm
  have hlow : ∀ x, x < base → ¬ (a.addr base ≤ x ∧ x < a.addr base + 4096 * a.pages) := by
    unfold Arena.addr
    intro x hx
    omega
  constructor
  · refine hst.keep (hbooks.erase a hunused) hm (fun k hk x _ hhi => hlow x ?_)
      (fun c hc x hx hin => ?_) fun k hk x hx hin => ?_
    · have hk : k < 7 := hk
      unfold descPtr DESC_SIZE DESC_MAX at *
      omega
    · obtain ⟨hc, hne⟩ := hgone c hc
      have hpos := (hbooks.ok c hc).pos
      unfold Arena.InHeader at hx
      exact hne (hbooks.arena_unique (x := x) hc ha (by omega) hin)
    · rcases hx with hx | ⟨c, hc, -, b, hb, -, hx⟩
      · have hk : k < 7 := hk
        refine hlow x ?_ hin
        unfold freeListAt descFreeList descPtr DESC_SIZE DESC_MAX at *
        omega
      · obtain ⟨hc, hne⟩ := hgone c hc
        have hbounds := (hbooks.ok c hc).block_bounds hb
        unfold Arena.InBlock at hx
        exact hne (hbooks.arena_unique (x := x) hc ha (by omega) hin)
  · refine SameBlocks.of_sameBut hm fun b hb x hlo hhi hin => ?_
    obtain ⟨c, hc, hblock, hcap⟩ := (hbooks.erase a hunused).housed b hb
    obtain ⟨hc, hne⟩ := hgone c hc
    have hbounds := (hbooks.ok c hc).block_bounds hblock
    exact hne (hbooks.arena_unique (x := x) hc ha (by omega) hin)

end OsTools.Threads

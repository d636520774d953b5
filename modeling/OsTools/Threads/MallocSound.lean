import OsTools.Threads.MallocSteps
/-!
# OsTools.Threads.MallocSound

The functions of `malloc.c` keep the allocator in order. `Sound h arenas live` ties
the pages held, the arenas and the blocks in use to what lies in memory. Each function
has one lemma: it returns, and the state it leaves is sound for the blocks that are in
use then. A call that returns null changes nothing.

## Proof shape

Between calls the allocator is `Sound`: `Ready`, and no arena of a descriptor is without a
block in use, since `free` gives such an arena back. Within a call it is only `Ready`, for
instance after `refill` has set up a new arena and before the first block is taken from it.
Every function then is a chain of the steps in `MallocSteps`, with the page allocator's
lemmas (`Ready.getPages`, `Pooled.freePages`) where pages come or go.

`Given` and `Taken` are the two things that can happen to the blocks in use. `calloc` and
`realloc` are stated with them: they call `malloc` and `free`, and what they write is inside
of a block.
-/

namespace OsTools.Threads

open Kernel Vm Mem

/-- The address of the first page of the kernel pool. -/
def Heap.base (h : Heap) : Nat := h.ram.kernelPool.base

/-- The pages held are those of the arenas. -/
structure Pooled (h : Heap) (arenas : List Arena) : Prop where
  placed : h.ram.kernelPool.Placed
  groups : h.groups.Perm (arenas.map fun a => (a.addr h.base, a.pages))
  within : ∀ a ∈ arenas, a.page + a.pages ≤ h.ram.kernelPool.usedMap.bitCnt
  held : ∀ a ∈ arenas, h.ram.kernelPool.usedMap.Group a.page a.pages true

/-- The allocator between two changes of its books. -/
structure Ready (h : Heap) (arenas : List Arena) (live : List Block) : Prop where
  site : Site h.descs h.base
  descCnt : h.descCnt = DESC_CNT
  pooled : Pooled h arenas
  books : Books h.base arenas live
  stored : Stored h.mem h.descs h.base arenas live

/-- The allocator between two calls. -/
structure Sound (h : Heap) (arenas : List Arena) (live : List Block) : Prop
    extends Ready h arenas live where
  used : AllUsed h.base arenas live

/-- What no call changes. -/
structure Heap.Fixed (h h' : Heap) : Prop where
  descs : h'.descs = h.descs
  descCnt : h'.descCnt = h.descCnt
  base : h'.base = h.base
  bitCnt : h'.ram.kernelPool.usedMap.bitCnt = h.ram.kernelPool.usedMap.bitCnt

section Pages

variable {h h' : Heap} {arenas : List Arena} {live : List Block} {a : Arena} {cnt : Nat}

theorem Heap.Fixed.refl (h : Heap) : h.Fixed h := ⟨rfl, rfl, rfl, rfl⟩

theorem Heap.Fixed.trans {h₁ : Heap} (h₁₂ : h.Fixed h₁) (h₂₃ : h₁.Fixed h') : h.Fixed h' :=
  ⟨h₂₃.descs.trans h₁₂.descs, h₂₃.descCnt.trans h₁₂.descCnt, h₂₃.base.trans h₁₂.base,
    h₂₃.bitCnt.trans h₁₂.bitCnt⟩

theorem Heap.Fixed.setMem (h : Heap) (m : Mem) : h.Fixed (h.setMem m) := ⟨rfl, rfl, rfl, rfl⟩

theorem Pooled.setMem (hp : Pooled h arenas) (m : Mem) : Pooled (h.setMem m) arenas :=
  ⟨hp.placed, hp.groups, hp.within, hp.held⟩

/-- The state after a call, in terms of what the call keeps. -/
theorem Ready.of_fixed {arenas' : List Arena} {live' : List Block} (hr : Ready h arenas live)
    (hf : h.Fixed h') (hp : Pooled h' arenas') (hb : Books h.base arenas' live')
    (hst : Stored h'.mem h.descs h.base arenas' live') : Ready h' arenas' live' := by
  refine ⟨?_, hf.descCnt.trans hr.descCnt, hp, ?_, ?_⟩
  · rw [hf.descs, hf.base]
    exact hr.site
  · rw [hf.base]
    exact hb
  · rw [hf.descs, hf.base]
    exact hst

theorem Ready.sound (hr : Ready h' arenas live) (hf : h.Fixed h')
    (hu : AllUsed h.base arenas live) : Sound h' arenas live := by
  refine ⟨hr, ?_⟩
  rw [hf.base]
  exact hu

/-- `palloc_get_multiple` gives pages for a new arena, or nothing. The pages were free in the
map, and those of the arenas are not, so that the new arena is apart from all others. -/
theorem Ready.getPages (hr : Ready h arenas live) (hcnt : 0 < cnt) :
    ∃ h' r, h.pallocGetMultiple cnt = .ok (h', r) ∧
      (r = 0 ∧ h' = h ∨ r ≠ 0 ∧ h.Fixed h' ∧ h'.mem = h.mem ∧ ∃ i, ∀ desc,
        (Arena.mk i cnt desc).Ok → r = (Arena.mk i cnt desc).addr h.base ∧
          Pooled h' (⟨i, cnt, desc⟩ :: arenas) ∧ Books h.base (⟨i, cnt, desc⟩ :: arenas) live ∧
          ∀ b, (Arena.mk i cnt desc).IsBlock h.base b → b ∉ addrs live) := by
  obtain ⟨ram', r, hget, hmem, huser, hbase, hbits, hcase⟩ :=
    Ram.pallocGetMultiple_spec hr.pooled.placed hcnt
  have hcall : h.pallocGetMultiple cnt = .ok ({ h with
      ram := ram', groups := if r = 0 then h.groups else (r, cnt) :: h.groups }, r) := by
    unfold Heap.pallocGetMultiple
    rw [hget]
    rfl
  refine ⟨_, r, hcall, ?_⟩
  rcases hcase with ⟨hnull, hsame⟩ | ⟨i, hpage, hle, hgroup, hbit⟩
  · left
    rw [if_pos hnull, hsame]
    exact ⟨hnull, rfl⟩
  · have hplaced := hr.pooled.placed
    have hpos := hplaced.pos
    have hnonnull : r ≠ 0 := by
      rw [hpage]
      unfold Pool.page
      omega
    rw [if_neg hnonnull]
    refine Or.inr ⟨hnonnull, ⟨rfl, rfl, hbase, hbits⟩, hmem, i, fun desc hok => ?_⟩
    -- the new pages were free, those of the arenas in use
    have happ : ∀ c ∈ arenas, (Arena.mk i cnt desc).Apart c := by
      intro c hc
      have hheld := hr.pooled.held c hc
      have hcpos := (hr.books.ok c hc).pos
      by_contra hno
      unfold Arena.Apart at hno
      dsimp only at hno
      have h₁ := hheld (max i c.page) (by omega) (by omega)
      have h₂ := hgroup (max i c.page) (by omega) (by omega)
      rw [h₁] at h₂
      cases h₂
    have hbooks : Books h.base (⟨i, cnt, desc⟩ :: arenas) live := by
      refine ⟨fun c hc => ?_, List.pairwise_cons.mpr ⟨happ, hr.books.apart⟩, fun c hc => ?_,
        fun b hb => ?_, hr.books.nodup⟩
      · rcases List.mem_cons.mp hc with rfl | hc
        · exact hok
        · exact hr.books.ok c hc
      · rcases List.mem_cons.mp hc with rfl | hc
        · have := hplaced.fits
          unfold Arena.addr Heap.base
          dsimp only
          omega
        · exact hr.books.top c hc
      · obtain ⟨c, hc, hblock⟩ := hr.books.housed b hb
        exact ⟨c, List.mem_cons_of_mem _ hc, hblock⟩
    refine ⟨hpage, ⟨?_, ?_, ?_, ?_⟩, hbooks, fun b hb hlive => ?_⟩
    · refine ⟨?_, ?_, ?_⟩
      · rw [hbase]
        exact hplaced.aligned
      · rw [hbase]
        exact hplaced.pos
      · rw [hbase, hbits]
        exact hplaced.fits
    · have hb : Heap.base { h with ram := ram', groups := (r, cnt) :: h.groups } = h.base := hbase
      rw [hb, List.map_cons, hpage]
      exact hr.pooled.groups.cons _
    · intro c hc
      dsimp only
      rw [hbits]
      rcases List.mem_cons.mp hc with rfl | hc
      · exact hle
      · exact hr.pooled.within c hc
    · intro c hc j h₁ h₂
      dsimp only
      rw [hbit j]
      rcases List.mem_cons.mp hc with rfl | hc
      · rw [if_pos ⟨h₁, h₂⟩]
      · have hold := hr.pooled.held c hc j h₁ h₂
        split_ifs
        · rfl
        · exact hold
    · obtain ⟨b', hb', rfl⟩ := List.mem_map.mp hlive
      obtain ⟨c, hc, hblock, -⟩ := hr.books.housed b' hb'
      have h₁ := (hr.books.ok c hc).cap_ge
      have h₂ := hok.cap_ge
      obtain ⟨heq, -⟩ := hbooks.block_unique (x := b'.addr) List.mem_cons_self
        (List.mem_cons_of_mem _ hc) hb hblock ⟨by omega, by omega⟩ ⟨by omega, by omega⟩
      exact hbooks.not_mem (heq ▸ hc)

/-- `palloc_free_multiple` takes the pages of an arena back. -/
theorem Pooled.freePages (hp : Pooled h arenas) (hbooks : Books h.base arenas live)
    (ha : a ∈ arenas) :
    ∃ h', h.pallocFreeMultiple (a.addr h.base) a.pages = .ok h' ∧ h.Fixed h' ∧
      h'.mem = h.mem.fill (a.addr h.base) (4096 * a.pages) 0xcc ∧ Pooled h' (arenas.erase a) := by
  obtain ⟨ram', hfree, hmem, huser, hbase, hbits, hbit⟩ :=
    Ram.pallocFreeMultiple_spec hp.placed (hbooks.ok a ha).pos (hp.within a ha) (hp.held a ha)
  have hfree : h.ram.pallocFreeMultiple (a.addr h.base) a.pages = .ok ram' := hfree
  refine ⟨{ h with ram := ram', groups := h.groups.erase (a.addr h.base, a.pages) }, ?_,
    ⟨rfl, rfl, hbase, hbits⟩, hmem, ⟨?_, ?_, ?_, ?_⟩⟩
  · unfold Heap.pallocFreeMultiple
    rw [hfree]
    rfl
  · refine ⟨?_, ?_, ?_⟩
    · rw [hbase]
      exact hp.placed.aligned
    · rw [hbase]
      exact hp.placed.pos
    · rw [hbase, hbits]
      exact hp.placed.fits
  · have hb : Heap.base { h with ram := ram', groups := h.groups.erase (a.addr h.base, a.pages) } =
        h.base := hbase
    rw [hb]
    have hperm := (List.perm_cons_erase ha).map fun c : Arena => (c.addr h.base, c.pages)
    have herase := (hp.groups.trans hperm).erase (a.addr h.base, a.pages)
    rwa [List.map_cons, List.erase_cons_head] at herase
  · intro c hc
    dsimp only
    rw [hbits]
    exact hp.within c (List.mem_of_mem_erase hc)
  · intro c hc j h₁ h₂
    obtain ⟨hne, hc⟩ := hbooks.arenas_nodup.mem_erase_iff.mp hc
    have hsymm : Std.Symm Arena.Apart := ⟨fun _ _ hac => Or.symm hac⟩
    have happ := hbooks.apart.forall hc ha hne
    unfold Arena.Apart at happ
    dsimp only
    rw [hbit j, if_neg (by omega)]
    exact hp.held c hc j h₁ h₂

end Pages

/-! ### `malloc` -/

section Malloc

variable {h h' : Heap} {arenas : List Arena} {live : List Block} {a : Arena} {k size p : Nat}

theorem AllUsed.grow {base : Nat} {b : Block} (hu : AllUsed base arenas live) :
    AllUsed base arenas (b :: live) := by
  intro a ha k hdesc
  obtain ⟨j, hj, hin⟩ := hu a ha k hdesc
  exact ⟨j, hj, addrs_cons b live _ hin⟩

theorem Books.housed_cons {base b : Nat} (hbooks : Books base arenas live) (ha : a ∈ arenas)
    (hb : a.IsBlock base b) (hfree : b ∉ addrs live) (hsize : size ≤ a.cap) :
    Books base arenas (⟨b, size⟩ :: live) := by
  refine ⟨hbooks.ok, hbooks.apart, hbooks.top, fun c hc => ?_, List.nodup_cons.mpr
    ⟨hfree, hbooks.nodup⟩⟩
  rcases List.mem_cons.mp hc with rfl | hc
  · exact ⟨a, ha, hb, hsize⟩
  · exact hbooks.housed c hc

/-- What `malloc` does: nothing, or it hands out a new block. -/
def Given (h : Heap) (live : List Block) (size : Nat) (h' : Heap) (p : Nat) : Prop :=
  (p = 0 ∧ h' = h) ∨ (p ≠ 0 ∧ p ∉ addrs live ∧ h.Fixed h' ∧ SameBlocks live h.mem h'.mem ∧
    ∃ arenas', Sound h' arenas' (⟨p, size⟩ :: live))

/-- The search for a descriptor. -/
theorem findDesc_spec {m : Mem} {descs : Nat} (hfields : FieldsOk m descs) (size : Nat) {n k : Nat}
    (hn : k + n = DESC_CNT) :
    (∃ l, l < DESC_CNT ∧ Heap.findDesc m size n (descPtr descs k) = descPtr descs l ∧
      size ≤ blockSizeOf l) ∨
    Heap.findDesc m size n (descPtr descs k) = descPtr descs DESC_CNT := by
  induction n generalizing k with
  | zero =>
      right
      rw [← hn]
      rfl
  | succ n ih =>
      unfold Heap.findDesc
      rw [(hfields k (by omega)).1]
      by_cases hle : blockSizeOf k ≥ size
      · rw [if_pos hle]
        exact Or.inl ⟨k, by omega, rfl, hle⟩
      · rw [if_neg hle]
        have hnext : descPtr descs k + DESC_SIZE = descPtr descs (k + 1) := by
          unfold descPtr DESC_SIZE
          omega
        rw [hnext]
        exact ih (by omega)

/-- A block that no descriptor has. It gets an arena of its own, whose number of pages is
rounded up from the size and the header; without the bound on the size this sum would wrap. -/
theorem Sound.mallocBig (hs : Sound h arenas live) (hsize : size + 11 < 2 ^ 32) :
    ∃ h' p, h.mallocBig size = .ok (h', p) ∧ Given h live size h' p := by
  obtain ⟨cnt, hcnt⟩ : ∃ cnt, divRoundUp ((size + ARENA_SIZE) % 2 ^ 32) PGSIZE = cnt := ⟨_, rfl⟩
  by_cases hwrap : cnt = 0
  · -- the sum wraps around while it is rounded up
    unfold Heap.mallocBig
    rw [hcnt, hwrap]
    exact ⟨h, 0, rfl, Or.inl ⟨rfl, rfl⟩⟩
  have hroom : 0 < cnt ∧ size + 12 ≤ 4096 * cnt := by
    unfold divRoundUp ARENA_SIZE PGSIZE at hcnt
    omega
  obtain ⟨h₁, r, hget, hcase⟩ := hs.getPages hroom.1
  unfold Heap.mallocBig
  rw [hcnt]
  dsimp only
  rw [hget, ok_bind]
  dsimp only
  rcases hcase with ⟨rfl, rfl⟩ | ⟨hne, hfixed, hmem, i, hnew⟩
  · exact ⟨h₁, 0, rfl, Or.inl ⟨rfl, rfl⟩⟩
  · obtain ⟨haddr, hpooled, hbooks, hunused⟩ := hnew none
      ⟨hroom.1, fun k hk => by cases hk⟩
    obtain ⟨a, hadef⟩ : ∃ a : Arena, a = ⟨i, cnt, none⟩ := ⟨_, rfl⟩
    have hdesc : a.desc = none := by rw [hadef]
    have hpages : a.pages = cnt := by rw [hadef]
    rw [← hadef] at haddr hpooled hbooks hunused
    have hblock : a.IsBlock h.base (a.addr h.base + 12) := by
      unfold Arena.IsBlock
      rw [hdesc]
    have hfree := hunused _ hblock
    have htop := hbooks.top a List.mem_cons_self
    have hdescAddr : a.descAddr h.descs = 0 := by
      unfold Arena.descAddr
      rw [hdesc]
    obtain ⟨hst, hhead, hsame⟩ := hs.stored.header_new hs.site hs.books hbooks (n := cnt) (by omega)
    rw [hdescAddr] at hst hhead hsame
    rw [if_neg hne, haddr, hmem]
    have hfixed := hfixed.trans (Heap.Fixed.setMem h₁ (setArena h.mem (a.addr h.base) 0 cnt))
    refine ⟨_, _, rfl, Or.inr ⟨by unfold ARENA_SIZE; omega, hfree, hfixed, hsame, a :: arenas, ?_⟩⟩
    refine (hs.of_fixed hfixed (hpooled.setMem _) ?_ ?_).sound hfixed ?_
    · refine hbooks.housed_cons List.mem_cons_self hblock hfree ?_
      unfold Arena.cap
      rw [hdesc]
      dsimp only
      omega
    · exact hst.big hbooks hdesc (by rw [hpages]; exact hhead) hfree size
    · intro c hc k hk
      rcases List.mem_cons.mp hc with rfl | hc
      · rw [hdesc] at hk
        cases hk
      · exact hs.used.grow c hc k hk

/-- A block is on the free list, or a new arena is set up, or there is no page for one. The
third case leaves everything as it was. -/
theorem Sound.refill (hs : Sound h arenas live) (hk : k < DESC_CNT) :
    ∃ h' found, h.refill (descPtr h.descs k) = .ok (h', found) ∧
      (found = false ∧ h' = h ∨ found = true ∧ h.Fixed h' ∧ SameBlocks live h.mem h'.mem ∧
        ∃ arenas', Ready h' arenas' live ∧ (∃ b, FreeBlock h.base arenas' live k b) ∧
          ∀ b size, FreeBlock h.base arenas' live k b →
            AllUsed h.base arenas' (⟨b, size⟩ :: live)) := by
  obtain ⟨empty, hempty, hiff⟩ := listEmpty_spec (hs.stored.lists k hk)
  have hempty : listEmpty h.mem (descFreeList (descPtr h.descs k)) = .ok empty := hempty
  unfold Heap.refill
  rw [hempty, ok_bind]
  cases empty with
  | false =>
      refine ⟨h, true, rfl, Or.inr ⟨rfl, Heap.Fixed.refl h, SameBlocks.refl _ _, arenas, hs.toReady,
        ?_, fun b size _ => hs.used.grow⟩⟩
      by_contra hno
      have := hiff.mpr fun b hb => hno ⟨b, hb⟩
      cases this
  | true =>
      have hnone := hiff.mp rfl
      obtain ⟨h₁, r, hget, hcase⟩ := hs.getPages Nat.one_pos
      rw [if_pos rfl, hget, ok_bind]
      dsimp only
      rcases hcase with ⟨rfl, rfl⟩ | ⟨hne, hfixed, hmem, i, hnew⟩
      · exact ⟨h₁, false, rfl, Or.inl ⟨rfl, rfl⟩⟩
      · obtain ⟨haddr, hpooled, hbooks, hunused⟩ := hnew (some k)
          ⟨Nat.one_pos, fun l hl => by cases hl; exact ⟨hk, rfl⟩⟩
        obtain ⟨a, hadef⟩ : ∃ a : Arena, a = ⟨i, 1, some k⟩ := ⟨_, rfl⟩
        have hdesc : a.desc = some k := by rw [hadef]
        rw [← hadef] at haddr hpooled hbooks hunused
        have hdescAddr : a.descAddr h.descs = descPtr h.descs k := by
          unfold Arena.descAddr
          rw [hdesc]
        obtain ⟨hst, hhead, hsame⟩ := hs.stored.header_new hs.site hs.books hbooks
          (n := blocksOf k) (by have := blocksOf_le k; omega)
        rw [hdescAddr] at hst hhead hsame
        obtain ⟨m', hloop, hst', hsame'⟩ := hst.fill_arena hs.site hbooks hk hdesc hhead hunused
        rw [if_neg hne, haddr, hmem, (hs.stored.fields k hk).2, (hst.fields k hk).2, hloop, ok_bind]
        have hfixed := hfixed.trans (Heap.Fixed.setMem h₁ m')
        refine ⟨_, true, rfl, Or.inr ⟨rfl, hfixed, hsame.trans hsame', a :: arenas,
          hs.of_fixed hfixed (hpooled.setMem _) hbooks hst', ?_, fun b size hb => ?_⟩⟩
        · have hblock : a.IsBlock h.base (a.slot h.base k 0) :=
            (Arena.isBlock_iff hdesc).mpr ⟨0, blocksOf_pos hk, rfl⟩
          exact ⟨_, ⟨a, List.mem_cons_self, hdesc, hblock⟩, hunused _ hblock⟩
        · -- the block is one of the new arena, as the list was empty before
          obtain ⟨⟨c, hc, hdesc', hb⟩, hfree⟩ := hb
          rcases List.mem_cons.mp hc with rfl | hc
          · obtain ⟨j, hj, hslot⟩ := (Arena.isBlock_iff hdesc).mp hb
            intro c' hc' l hl
            rcases List.mem_cons.mp hc' with rfl | hc'
            · rw [hdesc] at hl
              cases hl
              exact ⟨j, hj, List.mem_cons.mpr (Or.inl hslot.symm)⟩
            · exact hs.used.grow c' hc' l hl
          · exact absurd ⟨⟨c, hc, hdesc', hb⟩, hfree⟩ (hnone b)

/-- A block of a descriptor. -/
theorem Sound.mallocSmall (hs : Sound h arenas live) (hk : k < DESC_CNT)
    (hsize : size ≤ blockSizeOf k) :
    ∃ h' p, h.mallocSmall (descPtr h.descs k) = .ok (h', p) ∧ Given h live size h' p := by
  obtain ⟨h₁, found, hrefill, hcase⟩ := hs.refill hk
  unfold Heap.mallocSmall
  rw [hrefill, ok_bind]
  dsimp only
  rcases hcase with ⟨rfl, rfl⟩ | ⟨rfl, hfixed, hsame, arenas', hr, hfree, hused⟩
  · exact ⟨h₁, 0, rfl, Or.inl ⟨rfl, rfl⟩⟩
  · have hsite := hr.site
    have hbooks := hr.books
    have hst := hr.stored
    rw [hfixed.base] at hsite hbooks hst
    rw [hfixed.descs] at hsite hst
    obtain ⟨m₁, b, a, hpop, ha, hdesc, hb, hnew, harena, hst', hsame'⟩ :=
      hst.take hsite hbooks hk hfree size
    have hpop : listPopFront h₁.mem (descFreeList (descPtr h.descs k)) = .ok (m₁, b) := hpop
    rw [if_pos rfl, hpop, ok_bind]
    dsimp only
    rw [harena, ok_bind]
    have hfixed' := hfixed.trans (Heap.Fixed.setMem h₁ (setArenaFreeCnt m₁ (a.addr h.base)
      (sub32 (arenaFreeCnt m₁ (a.addr h.base)) 1)))
    have hcell := cell_bounds hbooks ha hb
    refine ⟨_, b, rfl, Or.inr ⟨by omega, hnew, hfixed', hsame.trans hsame', arenas', ?_⟩⟩
    refine (hs.of_fixed hfixed' (hr.pooled.setMem _) (hbooks.housed_cons ha hb hnew ?_) hst').sound
      hfixed' (hused b size ⟨⟨a, ha, hdesc, hb⟩, hnew⟩)
    rw [Arena.cap_eq hdesc]
    exact hsize

/-- `malloc`. -/
theorem Sound.malloc (hs : Sound h arenas live) (hsize : size + 11 < 2 ^ 32) :
    ∃ h' p, h.malloc size = .ok (h', p) ∧ Given h live size h' p := by
  unfold Heap.malloc
  by_cases hzero : size = 0
  · rw [if_pos hzero]
    exact ⟨h, 0, rfl, Or.inl ⟨rfl, rfl⟩⟩
  · rw [if_neg hzero]
    have hfirst : h.descs = descPtr h.descs 0 := rfl
    have hfind := findDesc_spec hs.stored.fields size (Nat.zero_add DESC_CNT)
    rw [← hfirst, ← hs.descCnt] at hfind
    dsimp only
    rcases hfind with ⟨l, hl, hfind, hle⟩ | hfind
    · have hne : descPtr h.descs l ≠ descPtr h.descs h.descCnt := by
        unfold descPtr DESC_SIZE
        omega
      rw [hfind, if_neg hne]
      exact hs.mallocSmall (hs.descCnt ▸ hl) hle
    · rw [if_pos hfind]
      exact hs.mallocBig hsize

/-! ### `free` -/

theorem AllUsed.release {base : Nat} (hu : AllUsed base arenas live)
    (hbooks : Books base arenas live) (ha : a ∈ arenas) (hp : a.IsBlock base p) :
    ∀ c ∈ arenas, c ≠ a → ∀ k, c.desc = some k →
      ∃ j, j < blocksOf k ∧ c.slot base k j ∈ addrs (release p live) := by
  intro c hc hne k hdesc
  obtain ⟨j, hj, hin⟩ := hu c hc k hdesc
  refine ⟨j, hj, mem_addrs_release.mpr ⟨hin, fun heq => hne ?_⟩⟩
  have hslot : c.IsBlock base p := (Arena.isBlock_iff hdesc).mpr ⟨j, hj, heq.symm⟩
  have h₁ := (hbooks.ok a ha).cap_ge
  have h₂ := (hbooks.ok c hc).cap_ge
  exact (hbooks.block_unique (x := p) hc ha hslot hp ⟨by omega, by omega⟩ ⟨by omega, by omega⟩).1

/-- What `free` does. -/
def Taken (h : Heap) (live : List Block) (p : Nat) (h' : Heap) : Prop :=
  h.Fixed h' ∧ SameBlocks (release p live) h.mem h'.mem ∧
    ∃ arenas', Sound h' arenas' (release p live)

/-- The pages of an arena with no block in use go back. -/
theorem Ready.dropArena {live' : List Block} (hr : Ready h arenas live)
    (hpooled : Pooled h' arenas) (hfixed : h.Fixed h')
    (hst : Stored h'.mem h.descs h.base (arenas.erase a) live')
    (hbooks : Books h.base arenas live') (ha : a ∈ arenas)
    (hunused : ∀ b, a.IsBlock h.base b → b ∉ addrs live') (hsame : SameBlocks live' h.mem h'.mem)
    (hused : ∀ c ∈ arenas, c ≠ a → ∀ k, c.desc = some k →
      ∃ j, j < blocksOf k ∧ c.slot h.base k j ∈ addrs live') :
    ∃ h'', h'.pallocFreeMultiple (a.addr h.base) a.pages = .ok h'' ∧ h.Fixed h'' ∧
      SameBlocks live' h.mem h''.mem ∧ ∃ arenas', Sound h'' arenas' live' := by
  have hbooks' := hbooks
  rw [← hfixed.base] at hbooks'
  obtain ⟨h'', hfree, hfixed', hmem, hpooled'⟩ := hpooled.freePages hbooks' ha
  rw [hfixed.base] at hfree hmem
  have hfill : h'.mem.SameBut h''.mem
      fun x => a.addr h.base ≤ x ∧ x < a.addr h.base + 4096 * a.pages := by
    rw [hmem]
    exact Mem.SameBut.blit _ _ _ _
  obtain ⟨hst', hsame'⟩ := hst.drop_pages hr.site hbooks ha hunused hfill
  have hall := hfixed.trans hfixed'
  refine ⟨h'', hfree, hall, hsame.trans hsame', arenas.erase a,
    (hr.of_fixed hall hpooled' (hbooks.erase a hunused) hst').sound hall fun c hc k hk => ?_⟩
  obtain ⟨hne, hc⟩ := hbooks.arenas_nodup.mem_erase_iff.mp hc
  exact hused c hc hne k hk

/-- A block of a descriptor. It is overwritten and goes back to the free list, and the counter
of its arena goes up; if all blocks of the arena are free then, they are taken off the list
again and the page is given back. -/
theorem Sound.freeSmall (hs : Sound h arenas live) (ha : a ∈ arenas) (hdesc : a.desc = some k)
    (hp : a.IsBlock h.base p) (hlive : p ∈ addrs live) :
    ∃ h', h.freeSmall p (a.addr h.base) (descPtr h.descs k) = .ok h' ∧ Taken h live p h' := by
  have hk := ((hs.books.ok a ha).small k hdesc).1
  have hbooks := hs.books.mono (release_sublist p live)
  obtain ⟨m₀, hfill⟩ : ∃ m₀, m₀ = h.mem.fill p (blockSizeOf k) 0xcc := ⟨_, rfl⟩
  have hblock : h.mem.SameBut m₀ (a.InBlock p) := by
    rw [hfill]
    refine (Mem.SameBut.blit _ _ _ _).mono fun x hx => ?_
    unfold Arena.InBlock
    rw [Arena.cap_eq hdesc]
    exact hx
  have hkept : SameBlocks (release p live) h.mem m₀ := by
    refine SameBlocks.of_sameBut hblock fun b hb x hlo hhi hx => ?_
    obtain ⟨c, hc, hcb, hcap⟩ := hbooks.housed b hb
    obtain ⟨-, heq⟩ := hbooks.block_unique hc ha hcb hp (x := x) ⟨hlo, by omega⟩ hx
    exact (mem_addrs_release.mp (List.mem_map.mpr ⟨b, hb, rfl⟩)).2 heq
  have hst₀ := hs.stored.keep_block hs.site hs.books ha hp hlive hblock
  obtain ⟨m₁, hpush, hst₁, hsame₁⟩ := hst₀.give hs.site hs.books hk ha hdesc hp hlive
  have hpush : listPushFront m₀ (descFreeList (descPtr h.descs k)) p = .ok m₁ := hpush
  unfold Heap.freeSmall
  dsimp only
  rw [(hs.stored.fields k hk).1, ← hfill, hpush, ok_bind]
  obtain ⟨m₂, hm₂⟩ : ∃ m₂, m₂ = setArenaFreeCnt m₁ (a.addr h.base)
      ((arenaFreeCnt m₁ (a.addr h.base) + 1) % 2 ^ 32) := ⟨_, rfl⟩
  rw [← hm₂] at hst₁ hsame₁ ⊢
  have hcnt : arenaFreeCnt m₂ (a.addr h.base) = freeCnt h.base (release p live) a k := by
    have hhead := (hst₁.header a ha).freeCnt
    unfold cntOf at hhead
    rw [hdesc] at hhead
    exact hhead
  rw [hcnt, (hst₁.fields k hk).2]
  have hle := freeCnt_le h.base (release p live) a k
  have hothers := hs.used.release hs.books ha hp
  by_cases hfull : freeCnt h.base (release p live) a k = blocksOf k
  · -- all blocks of the arena are free: its page goes back
    have hslots := freeCnt_eq_blocksOf.mp hfull
    have hunused : ∀ b, a.IsBlock h.base b → b ∉ addrs (release p live) := by
      intro b hb
      obtain ⟨j, hj, rfl⟩ := (Arena.isBlock_iff hdesc).mp hb
      exact hslots j hj
    obtain ⟨m₃, hloop, hst₃, hsame₃⟩ := hst₁.unlink hs.site hbooks hk ha hdesc hunused
    have hone := ((hs.books.ok a ha).small k hdesc).2
    rw [if_pos (by omega), if_pos hfull, hloop, ok_bind, ← hone]
    exact hs.dropArena (hs.pooled.setMem m₃) (Heap.Fixed.setMem h m₃) hst₃ hbooks ha hunused
      ((hkept.trans hsame₁).trans hsame₃) hothers
  · rw [if_neg (by omega)]
    have hfixed := Heap.Fixed.setMem h m₂
    refine ⟨_, rfl, hfixed, hkept.trans hsame₁, arenas,
      (hs.of_fixed hfixed (hs.pooled.setMem m₂) hbooks hst₁).sound hfixed fun c hc l hl => ?_⟩
    by_cases hca : c = a
    · subst hca
      rw [hdesc] at hl
      cases hl
      by_contra hno
      refine hfull (freeCnt_eq_blocksOf.mpr fun j hj hin => hno ⟨j, hj, hin⟩)
    · exact hothers c hc hca l hl

/-- `free`, of a block in use. -/
theorem Sound.free (hs : Sound h arenas live) (hlive : p ∈ addrs live) :
    ∃ h', h.free p = .ok h' ∧ Taken h live p h' := by
  obtain ⟨b, hb, rfl⟩ := List.mem_map.mp hlive
  obtain ⟨a, ha, hblock, -⟩ := hs.books.housed b hb
  have hcell := cell_bounds hs.books ha hblock
  have hhead := hs.stored.header a ha
  unfold Heap.free
  rw [if_neg (by omega), blockToArena_eq hs.site hs.books ha hhead hs.stored.fields hblock, ok_bind,
    hhead.desc, hhead.freeCnt]
  dsimp only
  unfold Arena.descAddr cntOf
  cases hdesc : a.desc with
  | some k =>
      have hne : descPtr h.descs k ≠ 0 := by
        have := hs.site.pos
        unfold descPtr
        omega
      dsimp only
      rw [if_pos hne]
      exact hs.freeSmall ha hdesc hblock hlive
  | none =>
      have hbooks := hs.books.mono (release_sublist b.addr live)
      dsimp only
      rw [if_neg (not_not.mpr rfl)]
      refine hs.dropArena hs.pooled (Heap.Fixed.refl h)
        (hs.stored.unbig hs.books ha hdesc hblock hlive) hbooks ha (fun c hc hin => ?_)
        (SameBlocks.refl _ _) (hs.used.release hs.books ha hblock)
      unfold Arena.IsBlock at hblock hc
      rw [hdesc] at hblock hc
      exact (mem_addrs_release.mp hin).2 (hc.trans hblock.symm)

/-! ### `calloc` and `realloc` -/

/-- Writing to a block in use. -/
theorem Sound.write {b : Block} {m : Mem} (hs : Sound h arenas live) (hb : b ∈ live)
    (hm : h.mem.SameBut m fun x => b.addr ≤ x ∧ x < b.addr + b.size) :
    Sound (h.setMem m) arenas live ∧ ∀ c ∈ live, c.addr ≠ b.addr →
      ∀ i, i < c.size → m (c.addr + i) = h.mem (c.addr + i) := by
  obtain ⟨a, ha, hblock, hcap⟩ := hs.books.housed b hb
  have hin : ∀ x, b.addr ≤ x ∧ x < b.addr + b.size → a.InBlock b.addr x :=
    fun x hx => ⟨hx.1, by omega⟩
  have hfixed := Heap.Fixed.setMem h m
  refine ⟨(hs.of_fixed hfixed (hs.pooled.setMem m) hs.books ?_).sound hfixed hs.used, ?_⟩
  · exact hs.stored.keep_block hs.site hs.books ha hblock (List.mem_map.mpr ⟨b, hb, rfl⟩)
      (hm.mono hin)
  · intro c hc hne i hi
    obtain ⟨a', ha', hblock', hcap'⟩ := hs.books.housed c hc
    refine hm _ fun hx => hne ?_
    exact (hs.books.block_unique ha' ha hblock' hblock (x := c.addr + i)
      ⟨by omega, by omega⟩ (hin _ hx)).2

/-- `block_size`, where the header of the arena and the descriptors are in order. -/
theorem Books.blockSize_eq (hbooks : Books h.base arenas live) (hsite : Site h.descs h.base)
    (ha : a ∈ arenas) (hhead : HeaderOk h.mem h.descs h.base a (cntOf h.base live a))
    (hfields : FieldsOk h.mem h.descs) (hblock : a.IsBlock h.base p) :
    h.blockSize p = .ok a.cap := by
  have hok := hbooks.ok a ha
  unfold Heap.blockSize
  rw [blockToArena_eq hsite hbooks ha hhead hfields hblock, ok_bind, hhead.desc, hhead.freeCnt]
  dsimp only
  unfold Arena.descAddr cntOf Arena.cap
  cases hdesc : a.desc with
  | some k =>
      have hne : descPtr h.descs k ≠ 0 := by
        have := hsite.pos
        unfold descPtr
        omega
      dsimp only
      rw [if_pos hne, (hfields k (hok.small k hdesc).1).1]
  | none =>
      have htop := hbooks.top a ha
      have hpos := hsite.pos
      have hbelow := hsite.below
      have haligned := hsite.aligned
      unfold Arena.IsBlock at hblock
      rw [hdesc] at hblock
      dsimp only at hblock ⊢
      rw [if_neg (not_not.mpr rfl)]
      have hofs : pgOfs p = 12 := by
        unfold pgOfs PGSIZE Arena.addr at *
        omega
      have hpages := hok.pos
      have hroom : sub32 (PGSIZE * a.pages % 2 ^ 32) 12 = 4096 * a.pages - 12 := by
        unfold sub32 PGSIZE
        unfold Arena.addr at htop
        omega
      rw [hofs, hroom]

/-- `block_size`: the room in a block. -/
theorem Sound.blockSize_eq (hs : Sound h arenas live) (ha : a ∈ arenas)
    (hblock : a.IsBlock h.base p) : h.blockSize p = .ok a.cap :=
  hs.books.blockSize_eq hs.site ha (hs.stored.header a ha) hs.stored.fields hblock

/-- `calloc`, where its size is that of a block. -/
theorem Sound.calloc {m n : Nat} (hs : Sound h arenas live) (hsize : m * n % 2 ^ 32 = size)
    (hfits : size + 11 < 2 ^ 32) :
    ∃ h' p, h.calloc m n = .ok (h', p) ∧ Given h live size h' p ∧
      (p ≠ 0 → ∀ i, i < size → h'.mem (p + i) = 0) := by
  unfold Heap.calloc
  rw [hsize]
  dsimp only
  by_cases hover : size < m ∨ size < n
  · rw [if_pos hover]
    exact ⟨h, 0, rfl, Or.inl ⟨rfl, rfl⟩, fun hne => absurd rfl hne⟩
  · obtain ⟨h₁, p, hmalloc, hgiven⟩ := hs.malloc hfits
    rw [if_neg hover, hmalloc, ok_bind]
    dsimp only
    rcases hgiven with ⟨rfl, rfl⟩ | ⟨hne, hfree, hfixed, hsame, arenas', hs'⟩
    · rw [if_neg (not_not.mpr rfl)]
      exact ⟨h₁, 0, rfl, Or.inl ⟨rfl, rfl⟩, fun hne => absurd rfl hne⟩
    · obtain ⟨hs'', hothers⟩ := hs'.write (m := h₁.mem.fill p size 0) List.mem_cons_self
        (Mem.SameBut.blit _ _ _ _)
      rw [if_pos hne]
      refine ⟨_, p, rfl, Or.inr ⟨hne, hfree, hfixed.trans (Heap.Fixed.setMem h₁ _),
        hsame.trans fun b hb i hi => hothers b (List.mem_cons_of_mem _ hb) (fun heq => hfree ?_) i hi,
        arenas', hs''⟩, fun _ i hi => ?_⟩
      · exact List.mem_map.mpr ⟨b, hb, heq⟩
      · exact Mem.blit_of_inside (f := fun _ => 0) hi

theorem release_of_not_mem (hp : p ∉ addrs live) : release p live = live :=
  List.filter_eq_self.mpr fun b hb => decide_eq_true fun heq =>
    hp (List.mem_map.mpr ⟨b, hb, heq⟩)

theorem Sound.zero_not_mem (hs : Sound h arenas live) : 0 ∉ addrs live := by
  intro hin
  obtain ⟨b, hb, hzero⟩ := List.mem_map.mp hin
  obtain ⟨a, ha, hblock, -⟩ := hs.books.housed b hb
  have hcell := cell_bounds hs.books ha hblock
  omega

/-- `free`, of null or of a block in use. -/
theorem Sound.free_or_null (hs : Sound h arenas live) (hp : p = 0 ∨ p ∈ addrs live) :
    ∃ h', h.free p = .ok h' ∧ Taken h live p h' := by
  rcases hp with rfl | hp
  · refine ⟨h, rfl, Heap.Fixed.refl h, SameBlocks.refl _ _, arenas, ?_⟩
    rw [release_of_not_mem hs.zero_not_mem]
    exact hs
  · exact hs.free hp

/-- What `realloc` to `size` bytes does when it succeeds: the bytes of the block at `p` are in
the block at `q`. -/
def Moved (h : Heap) (live : List Block) (p size : Nat) (h' : Heap) (q : Nat) : Prop :=
  q ≠ 0 ∧ q ∉ addrs live ∧ h.Fixed h' ∧ SameBlocks (release p live) h.mem h'.mem ∧
    (∀ b ∈ live, b.addr = p → ∀ i, i < min b.size size → h'.mem (q + i) = h.mem (p + i)) ∧
    ∃ arenas', Sound h' arenas' (⟨q, size⟩ :: release p live)

/-- `realloc` is `free` for the size 0, and otherwise a new block, a copy and `free` of the
old one. The old block stays if there is no memory for a new one. -/
theorem Sound.realloc (hs : Sound h arenas live) (hp : p = 0 ∨ p ∈ addrs live)
    (hsize : size + 11 < 2 ^ 32) :
    ∃ h' q, h.realloc p size = .ok (h', q) ∧
      (size = 0 ∧ q = 0 ∧ Taken h live p h' ∨
        size ≠ 0 ∧ (q = 0 ∧ h' = h ∨ Moved h live p size h' q)) := by
  unfold Heap.realloc
  by_cases hzero : size = 0
  · obtain ⟨h', hfree, htaken⟩ := hs.free_or_null hp
    rw [if_pos hzero, hfree, ok_bind]
    exact ⟨h', 0, rfl, Or.inl ⟨hzero, rfl, htaken⟩⟩
  · obtain ⟨h₁, q, hmalloc, hgiven⟩ := hs.malloc hsize
    rw [if_neg hzero, hmalloc, ok_bind]
    dsimp only
    rcases hgiven with ⟨rfl, rfl⟩ | ⟨hne, hfree, hfixed, hsame, arenas', hs'⟩
    · rw [if_neg fun hnull => hnull.2 rfl]
      -- `malloc` fails, and the old block stays
      exact ⟨h₁, 0, rfl, Or.inr ⟨hzero, Or.inl ⟨rfl, rfl⟩⟩⟩
    · rcases hp with rfl | hp
      · rw [if_neg fun hnull => hnull.1 rfl]
        refine ⟨h₁, q, rfl, Or.inr ⟨hzero, Or.inr ⟨hne, hfree, hfixed, ?_, fun b hb hb0 => ?_,
          arenas', ?_⟩⟩⟩
        · rw [release_of_not_mem hs.zero_not_mem]
          exact hsame
        · exact absurd (List.mem_map.mpr ⟨b, hb, hb0⟩) hs.zero_not_mem
        · rw [release_of_not_mem hs.zero_not_mem]
          exact hs'
      · obtain ⟨b, hb, rfl⟩ := List.mem_map.mp hp
        have hb' : b ∈ ⟨q, size⟩ :: live := List.mem_cons_of_mem _ hb
        obtain ⟨a, ha, hblock, hcap⟩ := hs'.books.housed b hb'
        have hcell := cell_bounds hs'.books ha hblock
        have hqb : q ≠ b.addr := fun heq => hfree (heq ▸ hp)
        rw [if_pos ⟨by omega, hne⟩, hs'.blockSize_eq ha hblock, ok_bind]
        -- what is copied is at most the old block, and all of it that fits
        obtain ⟨cnt, hcnt⟩ : ∃ cnt, (if size < a.cap then size else a.cap) = cnt := ⟨_, rfl⟩
        have hle : cnt ≤ size ∧ min b.size size ≤ cnt := by
          rw [← hcnt]
          split_ifs <;> omega
        rw [hcnt]
        obtain ⟨m, hm⟩ : ∃ m, m = h₁.mem.blit q cnt fun i => h₁.mem (b.addr + i) := ⟨_, rfl⟩
        rw [← hm]
        obtain ⟨hs₂, hothers⟩ := hs'.write (m := m) (b := ⟨q, size⟩) List.mem_cons_self (by
          rw [hm]
          exact (Mem.SameBut.blit _ _ _ _).mono fun x hx => ⟨hx.1, by dsimp only; omega⟩)
        obtain ⟨h₃, hfree₃, hfixed₃, hsame₃, arenas₃, hs₃⟩ :=
          hs₂.free (p := b.addr) (addrs_cons _ live _ hp)
        have hrelease : release b.addr (⟨q, size⟩ :: live) = ⟨q, size⟩ :: release b.addr live :=
          List.filter_cons_of_pos (decide_eq_true hqb)
        rw [hrelease] at hsame₃ hs₃
        rw [hfree₃, ok_bind]
        refine ⟨h₃, q, rfl, Or.inr ⟨hzero, Or.inr ⟨hne, hfree,
          (hfixed.trans (Heap.Fixed.setMem h₁ m)).trans hfixed₃, ?_, fun c hc hcb i hi => ?_,
          arenas₃, hs₃⟩⟩⟩
        · intro c hc i hi
          have hlive : c ∈ live := (release_sublist _ _).subset hc
          rw [hsame₃ c (List.mem_cons_of_mem _ hc) i hi]
          show m (c.addr + i) = _
          rw [hothers c (List.mem_cons_of_mem _ hlive)
            (fun heq => hfree (List.mem_map.mpr ⟨c, hlive, heq⟩)) i hi]
          exact hsame c hlive i hi
        · have hc' : c.size = b.size := by
            have hinj := List.inj_on_of_nodup_map hs.books.nodup hc hb hcb
            rw [hinj]
          rw [hsame₃ ⟨q, size⟩ List.mem_cons_self i (by dsimp only; omega)]
          show m (q + i) = _
          rw [hm, Mem.blit_of_inside (by omega)]
          exact hsame b hb i (by omega)

end Malloc

end OsTools.Threads

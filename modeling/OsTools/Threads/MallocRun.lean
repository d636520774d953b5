import OsTools.Lib.Run
import OsTools.Threads.MallocSound
/-!
# OsTools.Threads.MallocRun

Runs of the kernel's `malloc` from boot. A step is a call, a program writing to a
block it was given, or something the rest of the kernel does: it may take and return
any pages that `malloc` does not hold and write anywhere outside these, so that a run
sees every pattern of failures of the page allocator.

## Proof shape

The step lemma has two parts. A call does one of the things that `MallocSound` says
(`Sound.call`), and everything else happens outside of the bytes and pages that the
allocator owns (`Sound.elsewhere`). `Accounted` restates what `Sound` says about the books
in terms of the memory: each free list with its blocks, the room in every block, the calls
that may be made. That each function returns is part of its lemma, so that no call stops the
kernel.
-/

namespace OsTools.Threads

open Kernel Vm Mem

/-- A call to the allocator. -/
inductive Call
  | malloc (size : Nat)
  | calloc (a b : Nat)
  | realloc (oldBlock newSize : Nat)
  | free (p : Nat)

/-- What a call does and returns; `free` returns nothing. -/
def Heap.call (h : Heap) : Call → Except Stop (Heap × Nat)
  | .malloc size => h.malloc size
  | .calloc a b => h.calloc a b
  | .realloc oldBlock newSize => h.realloc oldBlock newSize
  | .free p => do
      let h ← h.free p
      .ok (h, 0)

namespace Call

/-- The request is small enough for its arena to be rounded up to pages, and a block
that is given back is in use. -/
def Valid (live : List Block) : Call → Prop
  | .malloc size => size + 12 + 4095 < 2 ^ 32
  | .calloc a b => a * b + 12 + 4095 < 2 ^ 32
  | .realloc oldBlock newSize =>
      (oldBlock = 0 ∨ oldBlock ∈ addrs live) ∧ newSize + 12 + 4095 < 2 ^ 32
  | .free p => p = 0 ∨ p ∈ addrs live

/-- The blocks in use once the call has returned `r`. -/
def after (live : List Block) (r : Nat) : Call → List Block
  | .malloc size => if r = 0 then live else ⟨r, size⟩ :: live
  | .calloc a b => if r = 0 then live else ⟨r, a * b⟩ :: live
  | .realloc oldBlock newSize =>
      if newSize = 0 then release oldBlock live
      else if r = 0 then live
      else ⟨r, newSize⟩ :: release oldBlock live
  | .free p => release p live

/-- The block that the call gives back, if it succeeds. -/
def gives : Call → Nat
  | .malloc _ => 0
  | .calloc _ _ => 0
  | .realloc oldBlock _ => oldBlock
  | .free p => p

end Call

/-- The allocator and the blocks in use. -/
structure Alloc where
  heap : Heap
  live : List Block

/-- The bytes of the descriptors and of the pages that `malloc` holds. -/
def Heap.Owns (h : Heap) (x : Nat) : Prop :=
  (h.descs ≤ x ∧ x < h.descs + DESC_SIZE * DESC_MAX) ∨
    ∃ g ∈ h.groups, g.1 ≤ x ∧ x < g.1 + PGSIZE * g.2

/-- What the rest of the kernel may do. -/
structure Heap.Elsewhere (h h' : Heap) : Prop where
  descs : h'.descs = h.descs
  descCnt : h'.descCnt = h.descCnt
  groups : h'.groups = h.groups
  base : h'.base = h.base
  bitCnt : h'.ram.kernelPool.usedMap.bitCnt = h.ram.kernelPool.usedMap.bitCnt
  mem : ∀ x, h.Owns x → h'.mem x = h.mem x
  used : ∀ i, h.Owns (h.base + PGSIZE * i) →
    h'.ram.kernelPool.usedMap.bit i = h.ram.kernelPool.usedMap.bit i

/-- What happens in a step. -/
inductive Event
  | call (c : Call)
  | store
  | other

/-- One step. -/
inductive Step : Alloc → Event → Alloc → Prop
  | call {s : Alloc} {c : Call} {h : Heap} {r : Nat} : c.Valid s.live → s.heap.call c = .ok (h, r) →
      Step s (.call c) ⟨h, c.after s.live r⟩
  | store {s : Alloc} {b : Block} {m : Mem} : b ∈ s.live →
      s.heap.mem.SameBut m (fun x => b.addr ≤ x ∧ x < b.addr + b.size) →
      Step s .store ⟨s.heap.setMem m, s.live⟩
  | other {s : Alloc} {h : Heap} : s.heap.Elsewhere h → Step s .other ⟨h, s.live⟩

/-! ### Calls -/

/-- What every call does: it leaves the allocator sound, keeps the contents of the
blocks that stay in use, and a call that returns null on a request changes nothing. -/
structure Served (s : Alloc) (c : Call) (h : Heap) (r : Nat) : Prop where
  sound : ∃ arenas, Sound h arenas (c.after s.live r)
  fixed : s.heap.Fixed h
  kept : SameBlocks (release c.gives s.live) s.heap.mem h.mem
  failed : ∀ p n, c = .realloc p n → n ≠ 0 → r = 0 → h = s.heap
  moved : ∀ p n, c = .realloc p n → r ≠ 0 → ∀ b ∈ s.live, b.addr = p →
    ∀ i, i < min b.size n → h.mem (r + i) = s.heap.mem (p + i)

/-- A call that only hands out a block. -/
theorem Sound.served {s : Alloc} {arenas : List Arena} {c : Call} {h : Heap} {r size : Nat}
    (hs : Sound s.heap arenas s.live) (hgiven : Given s.heap s.live size h r)
    (hafter : c.after s.live r = if r = 0 then s.live else ⟨r, size⟩ :: s.live)
    (hgives : c.gives = 0) (hnot : ∀ p n, c ≠ .realloc p n) : Served s c h r := by
  rcases hgiven with ⟨rfl, rfl⟩ | ⟨hne, -, hfixed, hsame, arenas', hs'⟩
  · refine ⟨⟨arenas, ?_⟩, Heap.Fixed.refl _, SameBlocks.refl _ _, fun p n h => absurd h (hnot p n),
      fun p n h => absurd h (hnot p n)⟩
    rw [hafter, if_pos rfl]
    exact hs
  · refine ⟨⟨arenas', ?_⟩, hfixed, ?_, fun p n h => absurd h (hnot p n),
      fun p n h => absurd h (hnot p n)⟩
    · rw [hafter, if_neg hne]
      exact hs'
    · rw [hgives, release_of_not_mem hs.zero_not_mem]
      exact hsame

/-- No call stops the kernel: one case for each of the four functions, by its
specification. -/
theorem Sound.call {s : Alloc} {arenas : List Arena} {c : Call} (hs : Sound s.heap arenas s.live)
    (hc : c.Valid s.live) : ∃ h r, s.heap.call c = .ok (h, r) ∧ Served s c h r := by
  cases c with
  | malloc size =>
      have hc : size + 12 + 4095 < 2 ^ 32 := hc
      obtain ⟨h, r, hcall, hgiven⟩ := hs.malloc (show size + 11 < 2 ^ 32 by omega)
      exact ⟨h, r, hcall, hs.served hgiven rfl rfl fun _ _ h => by cases h⟩
  | calloc a b =>
      have hc : a * b + 12 + 4095 < 2 ^ 32 := hc
      obtain ⟨h, r, hcall, hgiven, -⟩ :=
        hs.calloc (m := a) (n := b) (Nat.mod_eq_of_lt (by omega)) (by omega)
      exact ⟨h, r, hcall, hs.served hgiven rfl rfl fun _ _ h => by cases h⟩
  | realloc p n =>
      obtain ⟨h, r, hcall, hcase⟩ := hs.realloc hc.1 (show n + 11 < 2 ^ 32 by have := hc.2; omega)
      refine ⟨h, r, hcall, ?_⟩
      rcases hcase with ⟨rfl, rfl, hfixed, hsame, arenas', hs'⟩ |
        ⟨hn, ⟨rfl, rfl⟩ | ⟨hne, -, hfixed, hsame, hmoved, arenas', hs'⟩⟩
      · refine ⟨⟨arenas', hs'⟩, hfixed, hsame, fun q n hq hn => ?_, fun q n _ hr => absurd rfl hr⟩
        cases hq
        exact absurd rfl hn
      · refine ⟨⟨arenas, ?_⟩, Heap.Fixed.refl _, SameBlocks.refl _ _, fun _ _ _ _ _ => rfl,
          fun q n _ hr => absurd rfl hr⟩
        unfold Call.after
        dsimp only
        rw [if_neg hn, if_pos rfl]
        exact hs
      · refine ⟨⟨arenas', ?_⟩, hfixed, hsame, fun q n _ _ hr => absurd hr hne, fun q n hq _ => ?_⟩
        · unfold Call.after
          dsimp only
          rw [if_neg hn, if_neg hne]
          exact hs'
        · cases hq
          exact hmoved
  | free p =>
      obtain ⟨h, hfree, hfixed, hsame, arenas', hs'⟩ := hs.free_or_null hc
      refine ⟨h, 0, ?_, ⟨arenas', hs'⟩, hfixed, hsame, fun _ _ h => (by cases h),
        fun _ _ h => (by cases h)⟩
      unfold Heap.call
      dsimp only
      rw [hfree]
      rfl

/-- The allocator holds its pages and its descriptors whatever the rest of the kernel does.
The rest writes neither to the pages of an arena, but for the blocks it was given, nor to the
descriptors, and takes and gives back other pages of the pool. -/
theorem Sound.elsewhere {h h' : Heap} {arenas : List Arena} {live : List Block}
    (hs : Sound h arenas live) (he : h.Elsewhere h') : Sound h' arenas live := by
  have hfixed : h.Fixed h' := ⟨he.descs, he.descCnt, he.base, he.bitCnt⟩
  have howned : ∀ a ∈ arenas, ∀ x, a.addr h.base ≤ x → x < a.addr h.base + 4096 * a.pages →
      h.Owns x := by
    intro a ha x hlo hhi
    refine Or.inr ⟨(a.addr h.base, a.pages), hs.pooled.groups.mem_iff.mpr
      (List.mem_map.mpr ⟨a, ha, rfl⟩), hlo, hhi⟩
  have hpool := hs.pooled
  have hbase : h'.ram.kernelPool.base = h.ram.kernelPool.base := he.base
  refine (hs.of_fixed hfixed ⟨⟨?_, ?_, ?_⟩, ?_, ?_, ?_⟩ hs.books ?_).sound hfixed hs.used
  · rw [hbase]
    exact hpool.placed.aligned
  · rw [hbase]
    exact hpool.placed.pos
  · rw [hbase, he.bitCnt]
    exact hpool.placed.fits
  · rw [he.groups, he.base]
    exact hpool.groups
  · rw [he.bitCnt]
    exact hpool.within
  · intro a ha j h₁ h₂
    rw [he.used j (howned a ha _ ?_ ?_)]
    · exact hpool.held a ha j h₁ h₂
    · unfold Arena.addr PGSIZE
      omega
    · unfold Arena.addr PGSIZE
      omega
  · have hsame : h.mem.SameBut h'.mem fun x => ¬ h.Owns x :=
      fun x hx => he.mem x (not_not.mp hx)
    have hdesc : ∀ x, h.descs ≤ x → x < h.descs + DESC_SIZE * DESC_MAX → ¬ ¬ h.Owns x :=
      fun x hlo hhi hno => hno (Or.inl ⟨hlo, hhi⟩)
    refine hs.stored.keep hs.books hsame (fun k hk x hlo hhi => ?_) (fun a ha x hx hno => ?_)
      fun k hk x hx => ?_
    · have hk : k < 7 := hk
      unfold descPtr at hlo hhi
      refine hdesc x (by omega) ?_
      unfold DESC_SIZE DESC_MAX at *
      omega
    · have hpos := (hs.books.ok a ha).pos
      exact hno (howned a ha x hx.1 (by have := hx.2; omega))
    · have hk : k < 7 := hk
      rcases hx with ⟨hlo, hhi⟩ | ⟨a, ha, -, b, hb, -, hin⟩
      · unfold freeListAt descFreeList descPtr at hlo hhi
        refine hdesc x (by omega) ?_
        unfold DESC_SIZE DESC_MAX at *
        omega
      · have hbounds := (hs.books.ok a ha).block_bounds hb
        unfold Arena.InBlock at hin
        exact fun hno => hno (howned a ha x (by omega) (by omega))

/-- One step. -/
theorem Sound.step {s s' : Alloc} {e : Event} (hs : ∃ arenas, Sound s.heap arenas s.live)
    (hstep : Step s e s') : ∃ arenas, Sound s'.heap arenas s'.live := by
  obtain ⟨arenas, hs⟩ := hs
  cases hstep with
  | call hc hcall =>
      obtain ⟨h, r, hcall', hserved⟩ := hs.call hc
      rw [hcall] at hcall'
      cases hcall'
      exact hserved.sound
  | store hb hm => exact ⟨arenas, (hs.write hb hm).1⟩
  | other he => exact ⟨arenas, hs.elsewhere he⟩

/-! ### The allocator as a whole -/

/-- The blocks of an arena of the descriptor at `d`, whose header is at `a`. -/
def Heap.arenaBlock (h : Heap) (d a j : Nat) : Nat :=
  a + ARENA_SIZE + j * descBlockSize h.mem d

/-- The group of pages `g` is an arena of the descriptor at `d`. -/
def Heap.ArenaOf (h : Heap) (d : Nat) (g : Nat × Nat) : Prop :=
  g ∈ h.groups ∧ arenaDesc h.mem g.1 = d

/-- The free list of the descriptor at `d` is `l`. -/
structure FreeList (s : Alloc) (d : Nat) (l : List Nat) : Prop where
  linked : Linked s.heap.mem (descFreeList d) (listTail (descFreeList d)) l
  nodup : l.Nodup
  mem : ∀ b, b ∈ l ↔ b ∉ addrs s.live ∧ ∃ g, s.heap.ArenaOf d g ∧
    ∃ j, j < descBlocksPerArena s.heap.mem d ∧ b = s.heap.arenaBlock d g.1 j
  freeCnt : ∀ g, s.heap.ArenaOf d g → arenaFreeCnt s.heap.mem g.1 =
    (List.range (descBlocksPerArena s.heap.mem d)).countP
      fun j => decide (s.heap.arenaBlock d g.1 j ∈ l)
  below : ∀ g, s.heap.ArenaOf d g → arenaFreeCnt s.heap.mem g.1 < descBlocksPerArena s.heap.mem d

/-- The block `b` in use has room for `n` bytes and lies in its arena behind the header. -/
structure Roomy (s : Alloc) (b : Block) (n : Nat) : Prop where
  size : s.heap.blockSize b.addr = .ok n
  enough : b.size ≤ n
  inside : ∃ g ∈ s.heap.groups, blockToArena s.heap.mem b.addr = .ok g.1 ∧
    g.1 + ARENA_SIZE ≤ b.addr ∧ b.addr + n ≤ g.1 + PGSIZE * g.2

/-- The allocator is in order: its free lists, the blocks in use, and every call that
may be made returns. -/
structure Accounted (s : Alloc) : Prop where
  free : ∀ k, k < s.heap.descCnt → ∃ l, FreeList s (descPtr s.heap.descs k) l
  room : ∀ b ∈ s.live, ∃ n, Roomy s b n
  apart : s.live.Pairwise fun b c => ∀ n n', Roomy s b n → Roomy s c n' →
    b.addr + n ≤ c.addr ∨ c.addr + n' ≤ b.addr
  returns : ∀ c : Call, c.Valid s.live → ∃ r, s.heap.call c = .ok r

section Accounted

variable {s : Alloc} {arenas : List Arena} {k : Nat}

/-- The groups of pages with a descriptor are the arenas of that descriptor. -/
theorem Sound.arenaOf_iff (hs : Sound s.heap arenas s.live) {g : Nat × Nat} :
    s.heap.ArenaOf (descPtr s.heap.descs k) g ↔
      ∃ a ∈ arenas, a.desc = some k ∧ g = (a.addr s.heap.base, a.pages) := by
  constructor
  · rintro ⟨hg, hdesc⟩
    obtain ⟨a, ha, rfl⟩ := List.mem_map.mp (hs.pooled.groups.mem_iff.mp hg)
    rw [(hs.stored.header a ha).desc] at hdesc
    refine ⟨a, ha, ?_, rfl⟩
    unfold Arena.descAddr at hdesc
    cases hd : a.desc with
    | none =>
        have := hs.site.pos
        rw [hd] at hdesc
        unfold descPtr at hdesc
        dsimp only at hdesc
        omega
    | some l =>
        rw [hd] at hdesc
        unfold descPtr DESC_SIZE at hdesc
        dsimp only at hdesc
        congr 1
        omega
  · rintro ⟨a, ha, hdesc, rfl⟩
    refine ⟨hs.pooled.groups.mem_iff.mpr (List.mem_map.mpr ⟨a, ha, rfl⟩), ?_⟩
    rw [(hs.stored.header a ha).desc]
    unfold Arena.descAddr
    rw [hdesc]

theorem Sound.arenaBlock_eq (hs : Sound s.heap arenas s.live) (hk : k < DESC_CNT) (a : Arena)
    (j : Nat) : s.heap.arenaBlock (descPtr s.heap.descs k) (a.addr s.heap.base) j =
      a.slot s.heap.base k j := by
  unfold Heap.arenaBlock
  rw [(hs.stored.fields k hk).1]
  rfl

/-- The free list of a descriptor is a list in memory, of the blocks that are free. -/
theorem Sound.freeList (hs : Sound s.heap arenas s.live) (hk : k < DESC_CNT) :
    ∃ l, FreeList s (descPtr s.heap.descs k) l := by
  obtain ⟨l, hl, hmem⟩ := hs.stored.lists k hk
  have hblocks := (hs.stored.fields k hk).2
  have hcount : ∀ a ∈ arenas, a.desc = some k →
      arenaFreeCnt s.heap.mem (a.addr s.heap.base) = freeCnt s.heap.base s.live a k := by
    intro a ha hdesc
    have hcnt := (hs.stored.header a ha).freeCnt
    unfold cntOf at hcnt
    rw [hdesc] at hcnt
    exact hcnt
  refine ⟨l, hl, (List.nodup_cons.mp (List.nodup_append.mp hl.nodup).1).2, fun b => ?_,
    fun g hg => ?_, fun g hg => ?_⟩
  · rw [hmem, hblocks]
    constructor
    · rintro ⟨⟨a, ha, hdesc, hb⟩, hfree⟩
      obtain ⟨j, hj, rfl⟩ := (Arena.isBlock_iff hdesc).mp hb
      exact ⟨hfree, _, hs.arenaOf_iff.mpr ⟨a, ha, hdesc, rfl⟩, j, hj,
        (hs.arenaBlock_eq hk a j).symm⟩
    · rintro ⟨hfree, g, hg, j, hj, rfl⟩
      obtain ⟨a, ha, hdesc, rfl⟩ := hs.arenaOf_iff.mp hg
      rw [hs.arenaBlock_eq hk a j] at hfree ⊢
      exact ⟨⟨a, ha, hdesc, (Arena.isBlock_iff hdesc).mpr ⟨j, hj, rfl⟩⟩, hfree⟩
  · obtain ⟨a, ha, hdesc, rfl⟩ := hs.arenaOf_iff.mp hg
    rw [hcount a ha hdesc, hblocks]
    unfold freeCnt
    refine List.countP_congr fun j hj => ?_
    rw [hs.arenaBlock_eq hk a j, decide_eq_true_iff, decide_eq_true_iff, hmem]
    refine ⟨fun hfree => ⟨⟨a, ha, hdesc, ?_⟩, hfree⟩, fun hb => hb.2⟩
    exact (Arena.isBlock_iff hdesc).mpr ⟨j, List.mem_range.mp hj, rfl⟩
  · obtain ⟨a, ha, hdesc, rfl⟩ := hs.arenaOf_iff.mp hg
    rw [hcount a ha hdesc, hblocks]
    obtain ⟨j, hj, hin⟩ := hs.used a ha k hdesc
    refine Nat.lt_of_le_of_ne (freeCnt_le _ _ _ _) fun heq => ?_
    exact freeCnt_eq_blocksOf.mp heq j hj hin

/-- A block has exactly the room of a block of its arena. -/
theorem Sound.roomy_iff (hs : Sound s.heap arenas s.live) {b : Block} {a : Arena} {n : Nat}
    (ha : a ∈ arenas) (hb : a.IsBlock s.heap.base b.addr) (hcap : b.size ≤ a.cap) :
    Roomy s b n ↔ n = a.cap := by
  have hsize := hs.blockSize_eq ha hb
  constructor
  · intro hroom
    have heq := hsize.symm.trans hroom.size
    cases heq
    rfl
  · rintro rfl
    have hbounds := (hs.books.ok a ha).block_bounds hb
    refine ⟨hsize, hcap, _, hs.pooled.groups.mem_iff.mpr (List.mem_map.mpr ⟨a, ha, rfl⟩), ?_,
      hbounds.1, hbounds.2⟩
    exact blockToArena_eq hs.site hs.books ha (hs.stored.header a ha) hs.stored.fields hb

theorem Sound.accounted (hs : Sound s.heap arenas s.live) : Accounted s := by
  refine ⟨fun k hk => hs.freeList (hs.descCnt ▸ hk), fun b hb => ?_, ?_, fun c hc => ?_⟩
  · obtain ⟨a, ha, hblock, hcap⟩ := hs.books.housed b hb
    exact ⟨a.cap, (hs.roomy_iff ha hblock hcap).mpr rfl⟩
  · have hnodup : s.live.Pairwise fun b c => b.addr ≠ c.addr := List.pairwise_map.mp hs.books.nodup
    refine hnodup.imp_of_mem fun {b c} hb hc hne n n' hn hn' => ?_
    obtain ⟨a, ha, hblock, hcap⟩ := hs.books.housed b hb
    obtain ⟨a', ha', hblock', hcap'⟩ := hs.books.housed c hc
    rw [(hs.roomy_iff ha hblock hcap).mp hn, (hs.roomy_iff ha' hblock' hcap').mp hn']
    exact hs.books.block_apart ha ha' hblock hblock' hne
  · obtain ⟨h, r, hcall, -⟩ := hs.call hc
    exact ⟨(h, r), hcall⟩

/-- A page that is not in use holds no byte of a block in use. -/
theorem Sound.page_used (hs : Sound s.heap arenas s.live) {b : Block} {n i x : Nat} (hb : b ∈ s.live)
    (hroom : Roomy s b n) (hx : b.addr ≤ x ∧ x < b.addr + n)
    (hi : s.heap.base + PGSIZE * i ≤ x ∧ x < s.heap.base + PGSIZE * (i + 1)) :
    s.heap.ram.kernelPool.usedMap.bit i = true := by
  obtain ⟨a, ha, hblock, hcap⟩ := hs.books.housed b hb
  have hn := (hs.roomy_iff ha hblock hcap).mp hroom
  have hbounds := (hs.books.ok a ha).block_bounds hblock
  refine hs.pooled.held a ha i ?_ ?_
  · unfold Arena.addr at hbounds
    unfold PGSIZE at hi
    omega
  · unfold Arena.addr at hbounds
    unfold PGSIZE at hi
    omega

end Accounted

/-! ### Boot -/

/-- The first `k` descriptors are set up. -/
def DescsUpTo (m : Mem) (descs k : Nat) : Prop :=
  ∀ l, l < k → (descBlockSize m (descPtr descs l) = blockSizeOf l ∧
    descBlocksPerArena m (descPtr descs l) = blocksOf l) ∧
    Holds m (freeListAt descs l) fun _ => False

/-- The loop of `malloc_init`. By induction on the descriptors that are left; the sizes are
powers of two, so that the loop ends after as many rounds as there are places in the array. -/
theorem mallocInitLoop_spec {h : Heap} {k n : Nat} (hn : k + n = DESC_CNT) (hcnt : h.descCnt = k)
    (hpos : 0 < h.descs) (htop : h.descs + DESC_SIZE * DESC_MAX ≤ 2 ^ 32)
    (hup : DescsUpTo h.mem h.descs k) :
    ∃ m, h.mallocInitLoop (blockSizeOf k) = .ok { h.setMem m with descCnt := DESC_CNT } ∧
      DescsUpTo m h.descs DESC_CNT := by
  induction n generalizing h k with
  | zero =>
      refine ⟨h.mem, ?_, ?_⟩
      · unfold Heap.mallocInitLoop
        -- the next size is that of a page: the loop ends
        have hk : k = 7 := hn
        subst hk
        rw [if_neg (by decide)]
        have heta : { h.setMem h.mem with descCnt := DESC_CNT } = h := by
          obtain ⟨ram, descs, descCnt, groups⟩ := h
          dsimp only at hcnt
          rw [hcnt]
          rfl
        rw [heta]
      · have hk : k = DESC_CNT := hn
        rw [← hk]
        exact hup
  | succ n ih =>
      have hk : k < 7 := by
        have : k + (n + 1) = 7 := hn
        omega
      have hsize := blockSizeOf_ge k
      have hsmall := blockSizeOf_le hk
      have hblocks := blocksOf_le k
      -- the two fields of the new descriptor, and then its list
      obtain ⟨m₁, hm₁⟩ : ∃ m₁, m₁ = (h.mem.store (descPtr h.descs k) 4 (blockSizeOf k)).store
          (descPtr h.descs k + 4) 4 (blocksOf k) := ⟨_, rfl⟩
      have hsame₁ : h.mem.SameBut m₁ fun x =>
          descPtr h.descs k ≤ x ∧ x < descPtr h.descs k + 8 := by
        rw [hm₁]
        exact ((SameBut.blit _ _ _ _).mono fun x hx => ⟨hx.1, by omega⟩).trans
          ((SameBut.blit _ _ _ _).mono fun x hx => ⟨by omega, by omega⟩)
      obtain ⟨m₂, hinit, hholds, hsame₂⟩ := @listInit_spec m₁ (freeListAt h.descs k)
        (by unfold freeListAt descFreeList; omega)
        (by unfold freeListAt descFreeList descPtr; unfold DESC_SIZE DESC_MAX at *; omega)
      have hlist : ∀ x, ListBytes (freeListAt h.descs k) (fun _ => False) x →
          descPtr h.descs k + 8 ≤ x ∧ x < descPtr h.descs k + 24 := by
        rintro x (⟨hlo, hhi⟩ | ⟨e, he, -⟩)
        · unfold freeListAt descFreeList at hlo hhi
          omega
        · exact absurd he id
      have hup' : DescsUpTo m₂ h.descs (k + 1) := by
        intro l hl
        rcases Nat.lt_succ_iff_lt_or_eq.mp hl with hl | rfl
        · -- the descriptors before are not touched
          have hbefore : ∀ x, descPtr h.descs l ≤ x → x < descPtr h.descs l + 24 →
              m₂ x = h.mem x := by
            intro x _ hhi
            unfold descPtr DESC_SIZE at *
            rw [hsame₂ x fun hx => by have := hlist x hx; omega, hsame₁ x fun hx => by omega]
          obtain ⟨hfields, hold⟩ := hup l hl
          refine ⟨?_, hold.keep (P := fun x => ¬ (descPtr h.descs l ≤ x ∧
            x < descPtr h.descs l + 24)) (fun x hx => ?_) fun x hx hno => ?_⟩
          · unfold descBlockSize descBlocksPerArena at *
            rw [load_congr (m := h.mem) (b := descPtr h.descs l) fun i hi =>
                hbefore _ (by omega) (by omega),
              load_congr (m := h.mem) (b := descPtr h.descs l + 4) fun i hi =>
                hbefore _ (by omega) (by omega)]
            exact hfields
          · have hin := not_not.mp hx
            exact hbefore x hin.1 hin.2
          · rcases hx with ⟨hlo, hhi⟩ | ⟨e, he, -⟩
            · unfold freeListAt descFreeList at hlo hhi
              exact hno ⟨by omega, by omega⟩
            · exact he
        · refine ⟨?_, hholds⟩
          unfold descBlockSize descBlocksPerArena
          rw [hsame₂.load fun i hi hx => by have := hlist _ hx; omega,
            hsame₂.load fun i hi hx => by have := hlist _ hx; omega, hm₁]
          exact ⟨(load_blit_of_disjoint (by omega)).trans (load_store (by omega)),
            load_store (by omega)⟩
      obtain ⟨m', hloop, hdone⟩ := @ih { h.setMem m₂ with descCnt := k + 1 } (k + 1) (by omega) rfl
        hpos htop hup'
      refine ⟨m', ?_, hdone⟩
      unfold Heap.mallocInitLoop
      have hnext : blockSizeOf k * 2 = blockSizeOf (k + 1) := by
        unfold blockSizeOf
        rw [Nat.pow_succ, Nat.mul_assoc]
      have hdiv : (PGSIZE - ARENA_SIZE) / blockSizeOf k = blocksOf k := rfl
      have hinit : listInit m₁ (descFreeList (descPtr h.descs k)) = .ok m₂ := hinit
      rw [if_pos ⟨by omega, by unfold PGSIZE; omega⟩]
      dsimp only
      rw [hcnt, if_pos (by unfold DESC_MAX; omega), hdiv, hnext]
      have hmem : Heap.mem { h with descCnt := k + 1 } = h.mem := rfl
      rw [hmem, ← hm₁, hinit, ok_bind]
      exact hloop

/-- `palloc_init` and `malloc_init`, on a machine with `initRamPages` pages of memory `m`
and the array of descriptors at `descs`. -/
def boot (m : Mem) (initRamPages userPageLimit descs : Nat) : Except Stop Heap := do
  let ram ← pallocInit m initRamPages userPageLimit
  Heap.mallocInit ⟨ram, descs, 0, []⟩

/-- The machine as `start.S` and the linker set it up: at most 64 MB of memory, and the
kernel's variables below the first megabyte. -/
structure Machine (initRamPages descs : Nat) : Prop where
  ram : initRamPages ≤ 16384
  pos : 0 < descs
  below : descs + DESC_SIZE * DESC_MAX ≤ PHYS_BASE + 1024 * 1024

theorem boot_sound {m : Mem} {initRamPages userPageLimit descs : Nat} {h : Heap}
    (hmachine : Machine initRamPages descs)
    (hboot : boot m initRamPages userPageLimit descs = .ok h) : Sound h [] [] := by
  obtain ⟨ram, hpalloc, hinit⟩ := bind_eq_ok hboot
  obtain ⟨hplaced, hbase, -⟩ := pallocInit_spec hmachine.ram hpalloc
  have hbelow := hmachine.below
  obtain ⟨m', hloop, hup⟩ := @mallocInitLoop_spec ⟨ram, descs, 0, []⟩ 0 DESC_CNT (Nat.zero_add _)
    rfl hmachine.pos (by unfold PHYS_BASE at hbelow; dsimp only; omega) fun l hl => by omega
  have hloop : Heap.mallocInit ⟨ram, descs, 0, []⟩ = .ok _ := hloop
  rw [hloop] at hinit
  cases hinit
  refine ⟨⟨⟨hmachine.pos, Nat.le_trans hbelow hbase, hplaced.aligned⟩, rfl,
    ⟨hplaced, List.Perm.refl _, fun a ha => (by cases ha), fun a ha => (by cases ha)⟩,
    ⟨fun a ha => (by cases ha), List.Pairwise.nil, fun a ha => (by cases ha),
      fun b hb => (by cases hb), List.nodup_nil⟩,
    ⟨fun k hk => (hup k hk).1, fun a ha => (by cases ha), fun k hk => (hup k hk).2.congr fun x => ?_⟩⟩,
    fun a ha => (by cases ha)⟩
  exact ⟨fun h => absurd h id, fun ⟨⟨a, ha, _⟩, _⟩ => by cases ha⟩

/-- What a call has done when it returns: the pages it returned hold no block in use,
the blocks that stay in use have their contents, and `realloc` keeps the old contents
up to the smaller size, or everything when it fails. -/
structure CallDone (s : Alloc) (c : Call) (s' : Alloc) : Prop where
  returned : ∀ i, s.heap.ram.kernelPool.usedMap.bit i = true →
    s'.heap.ram.kernelPool.usedMap.bit i = false → ∀ b ∈ s'.live, ∀ n, Roomy s' b n →
    ∀ x, b.addr ≤ x → x < b.addr + n →
      ¬ (s.heap.base + PGSIZE * i ≤ x ∧ x < s.heap.base + PGSIZE * (i + 1))
  contents : SameBlocks (release c.gives s.live) s.heap.mem s'.heap.mem
  realloc : ∀ p n, c = .realloc p n → ∃ r, s.heap.call c = .ok (s'.heap, r) ∧
    (r = 0 → n ≠ 0 → s' = s) ∧
    (r ≠ 0 → ∀ b ∈ s.live, b.addr = p →
      ∀ i, i < min b.size n → s'.heap.mem (r + i) = s.heap.mem (p + i))

theorem Sound.callDone {s s' : Alloc} {arenas : List Arena} {c : Call}
    (hs : Sound s.heap arenas s.live) (hstep : Step s (.call c) s') : CallDone s c s' := by
  cases hstep with
  | @call _ h r hc hcall =>
      obtain ⟨h', r', hcall', hserved⟩ := hs.call hc
      have hcall'' := hcall.symm.trans hcall'
      cases hcall''
      obtain ⟨arenas', hs'⟩ := hserved.sound
      refine ⟨fun i _ hfree b hb n hroom x hlo hhi hpage => ?_, hserved.kept, fun p n heq =>
        ⟨r, hcall, fun hr hn => ?_, fun hr => hserved.moved p n heq hr⟩⟩
      · rw [← hserved.fixed.base] at hpage
        have hused := hs'.page_used (s := ⟨h, c.after s.live r⟩) hb hroom ⟨hlo, hhi⟩ hpage
        rw [hfree] at hused
        cases hused
      · have hsame := hserved.failed p n heq hn hr
        subst heq
        unfold Call.after
        dsimp only
        rw [if_neg hn, if_pos hr, hsame]

/-- **The kernel's `malloc`.** In every run from boot, whatever pages the rest of the
kernel takes, returns and writes: each free list holds exactly the blocks of its arenas
that are not in use, the counters agree with it, the blocks in use lie apart inside their
arenas with the room asked for, no call fails an assertion, and every call does what
`CallDone` says. -/
theorem malloc_run_accounted {m : Mem} {initRamPages userPageLimit descs : Nat} {h : Heap}
    {ts : List (Transition Alloc Event)} (hmachine : Machine initRamPages descs)
    (hboot : boot m initRamPages userPageLimit descs = .ok h) (hrun : Run Step ⟨h, []⟩ ts) :
    Accounted ⟨h, []⟩ ∧ ∀ τ ∈ ts, Accounted τ.pre ∧ Accounted τ.post ∧
      ∀ c, τ.label = .call c → CallDone τ.pre c τ.post := by
  have hstart : Sound h [] [] := boot_sound hmachine hboot
  refine ⟨Sound.accounted (s := ⟨h, []⟩) hstart, fun τ hτ => ?_⟩
  obtain ⟨⟨arenas, hpre⟩, ⟨arenas', hpost⟩⟩ :=
    hrun.invariant (I := fun s => ∃ arenas, Sound s.heap arenas s.live)
      (fun s e s' hs hstep => Sound.step hs hstep) ⟨[], hstart⟩ τ hτ
  refine ⟨hpre.accounted, hpost.accounted, fun c hc => hpre.callDone ?_⟩
  have hstep := hrun.step_of_mem τ hτ
  rwa [hc] at hstep

/-- A machine with 2 MB of memory, on which a small and a big block are asked for. -/
theorem malloc_run_accounted_two_calls : ∃ (h : Heap) (ts : List (Transition Alloc Event)),
    boot (fun _ => 0) 512 1000 0xc0030000 = .ok h ∧
    ts.map Transition.label = [.call (.malloc 100), .call (.calloc 70 70)] ∧
    Accounted ⟨h, []⟩ ∧ ∀ τ ∈ ts, Accounted τ.pre ∧ Accounted τ.post ∧
      ∀ c, τ.label = .call c → CallDone τ.pre c τ.post := by
  have hmachine : Machine 512 0xc0030000 := ⟨by decide, by decide, by decide⟩
  obtain ⟨ram, hpalloc⟩ := @pallocInit_ok (fun _ => 0) 512 1000 (by decide) (by decide) (by decide)
  obtain ⟨m, hinit, -⟩ := @mallocInitLoop_spec ⟨ram, 0xc0030000, 0, []⟩ 0 DESC_CNT (Nat.zero_add _)
    rfl (by dsimp only; omega) (by unfold DESC_SIZE DESC_MAX; dsimp only; omega)
    fun l hl => by omega
  obtain ⟨h, hboot⟩ : ∃ h, boot (fun _ => 0) 512 1000 0xc0030000 = .ok h := by
    unfold boot
    rw [hpalloc, ok_bind]
    exact ⟨_, hinit⟩
  have hstart := boot_sound hmachine hboot
  have hsmall : 100 + 12 + 4095 < 2 ^ 32 := by decide
  have hbig : 70 * 70 + 12 + 4095 < 2 ^ 32 := by decide
  obtain ⟨h₁, r₁, hcall₁, hserved₁⟩ :=
    Sound.call (s := ⟨h, []⟩) (c := .malloc 100) hstart hsmall
  obtain ⟨arenas₁, hs₁⟩ := hserved₁.sound
  obtain ⟨h₂, r₂, hcall₂, -⟩ := Sound.call (s := ⟨h₁, _⟩) (c := .calloc 70 70) hs₁ hbig
  have hrun := Run.cons (Step.call (c := .malloc 100) hsmall hcall₁)
    (Run.cons (Step.call (c := .calloc 70 70) hbig hcall₂) (Run.nil _))
  exact ⟨_, _, hboot, rfl, malloc_run_accounted hmachine hboot hrun⟩

end OsTools.Threads

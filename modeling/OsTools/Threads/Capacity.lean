import OsTools.Threads.MallocRun
/-!
# OsTools.Threads.Capacity

How much room `malloc` and `calloc` give for requests of any 32-bit size. The number of
pages of a big block is computed by a sum that may wrap around, and `calloc` compares its
wrapped product with the factors only.

A request of at most `2 ^ 32 - 12` bytes gets its bytes or none, and so does a product up
to there. The eleven sizes above get one page, whenever there is one.

## Proof shape

The theorems are equivalences about the room in a block, so that both directions are needed:
when the sum of the size and a header wraps around, the block is too small, because every
block is smaller than such a size (`Sound.cap_lt`); when it does not, the number of pages is
right. `calloc` adds the product, which it compares with its factors: a product that has
wrapped around may still be as large as both.

The runs here allow requests of any size, also those with a block that is too small. The
books then record what was obtained, not what was asked for, and programs that write no
further than that keep the allocator sound (`Sound.wordStep`).
-/

namespace OsTools.Threads

open Kernel Vm Mem

/-- The `page_cnt` of `malloc`. -/
def pageCnt (size : Nat) : Nat := divRoundUp ((size + ARENA_SIZE) % 2 ^ 32) PGSIZE

/-- There are `cnt` free pages in a row in the kernel pool. -/
def Heap.FreePages (h : Heap) (cnt : Nat) : Prop :=
  cnt ≠ 0 ∧ ∃ i, i + cnt ≤ h.ram.kernelPool.usedMap.bitCnt ∧
    h.ram.kernelPool.usedMap.Group i cnt false

/-- There is memory for a request of `size` bytes: a free block of the descriptor for this size
or a page for a new arena, or the pages of a big block. -/
def Heap.Room (h : Heap) (size : Nat) : Prop :=
  let d := Heap.findDesc h.mem size h.descCnt h.descs
  size ≠ 0 ∧
    if d = descPtr h.descs h.descCnt then h.FreePages (pageCnt size)
    else listEmpty h.mem (descFreeList d) = .ok false ∨ h.FreePages 1

/-- The bytes that a request of `size` bytes gets, if it gets any. -/
def granted (size : Nat) : Nat := if size + 11 < 2 ^ 32 then size else 4084

/-! ### When there is memory -/

section Null

variable {h h' : Heap} {arenas : List Arena} {live : List Block} {size cnt d k p : Nat}

/-- `palloc_get_multiple` fails only if there are no pages. -/
theorem Heap.pallocGetMultiple_null (hp : h.ram.kernelPool.Placed)
    (hget : h.pallocGetMultiple cnt = .ok (h', p)) : p ≠ 0 ↔ h.FreePages cnt := by
  obtain ⟨⟨ram, pages⟩, hram, hresult⟩ := bind_eq_ok hget
  cases hresult
  unfold Ram.pallocGetMultiple at hram
  by_cases hcnt : cnt = 0
  · rw [if_pos hcnt] at hram
    cases hram
    exact ⟨fun hne => absurd rfl hne, fun hfree => absurd hcnt hfree.1⟩
  rw [if_neg hcnt] at hram
  obtain ⟨b, idx, hscan, -, hnone, hsome⟩ := Bitmap.scanAndFlip_spec hp.bitmap cnt
  have hscan : (h.ram.pool {}).usedMap.scanAndFlip 0 cnt false = .ok (b, idx) := hscan
  rw [hscan, ok_bind] at hram
  cases idx with
  | none =>
      cases hram
      refine ⟨fun hne => absurd rfl hne, fun hfree => ?_⟩
      obtain ⟨-, i, hi, hgroup⟩ := hfree
      exact absurd hgroup ((hnone rfl).2 i hi)
  | some i =>
      obtain ⟨hfirst, -⟩ := hsome i rfl
      have hpos := hp.pos
      have hne : h.ram.kernelPool.base + PGSIZE * i ≠ 0 := by omega
      have hram : (if h.ram.kernelPool.base + PGSIZE * i ≠ 0 then _ else _) = _ := hram
      rw [if_pos hne] at hram
      cases hram
      exact ⟨fun _ => ⟨hcnt, i, hfirst.le, hfirst.group⟩, fun _ => hne⟩

theorem Heap.mallocBig_null (hp : h.ram.kernelPool.Placed)
    (hbig : h.mallocBig size = .ok (h', p)) : p ≠ 0 ↔ h.FreePages (pageCnt size) := by
  obtain ⟨⟨h₁, a⟩, hget, hresult⟩ := bind_eq_ok hbig
  have hget : h.pallocGetMultiple (pageCnt size) = .ok (h₁, a) := hget
  rw [← Heap.pallocGetMultiple_null hp hget]
  dsimp only at hresult
  by_cases ha : a = 0
  · rw [if_pos ha] at hresult
    cases hresult
    exact ⟨fun hne => absurd rfl hne, fun hne => absurd ha hne⟩
  · rw [if_neg ha] at hresult
    cases hresult
    refine ⟨fun _ => ha, fun _ => ?_⟩
    unfold ARENA_SIZE
    omega

theorem Heap.refill_found {found : Bool} (hp : h.ram.kernelPool.Placed)
    (hrefill : h.refill d = .ok (h', found)) :
    found = true ↔ listEmpty h.mem (descFreeList d) = .ok false ∨ h.FreePages 1 := by
  obtain ⟨empty, hempty, hrefill⟩ := bind_eq_ok hrefill
  rw [hempty]
  cases empty with
  | false =>
      cases hrefill
      exact ⟨fun _ => Or.inl rfl, fun _ => rfl⟩
  | true =>
      obtain ⟨⟨h₁, a⟩, hget, hresult⟩ := bind_eq_ok hrefill
      rw [← Heap.pallocGetMultiple_null hp hget]
      dsimp only at hresult
      by_cases ha : a = 0
      · rw [if_pos ha] at hresult
        cases hresult
        exact ⟨fun h => (by cases h), fun h => h.elim (fun h => by cases h) fun hne => absurd ha hne⟩
      · rw [if_neg ha] at hresult
        obtain ⟨m, -, hm⟩ := bind_eq_ok hresult
        cases hm
        exact ⟨fun _ => Or.inr ha, fun _ => rfl⟩

/-- No block lies in the first page. -/
theorem ne_zero_of_blockToArena {m : Mem} {b a : Nat} (h : blockToArena m b = .ok a) : b ≠ 0 := by
  rintro rfl
  cases h

theorem Heap.mallocSmall_null (hp : h.ram.kernelPool.Placed)
    (hsmall : h.mallocSmall d = .ok (h', p)) :
    p ≠ 0 ↔ listEmpty h.mem (descFreeList d) = .ok false ∨ h.FreePages 1 := by
  obtain ⟨⟨h₁, found⟩, hrefill, hresult⟩ := bind_eq_ok hsmall
  rw [← Heap.refill_found hp hrefill]
  cases found with
  | false =>
      cases hresult
      exact ⟨fun hne => absurd rfl hne, fun h => (by cases h)⟩
  | true =>
      obtain ⟨⟨m, b⟩, -, hresult⟩ := bind_eq_ok hresult
      obtain ⟨a, harena, hresult⟩ := bind_eq_ok hresult
      cases hresult
      exact ⟨fun _ => rfl, fun _ => ne_zero_of_blockToArena harena⟩

/-- `malloc` returns a block exactly when there is memory for it. -/
theorem Heap.malloc_null (hp : h.ram.kernelPool.Placed) (hmalloc : h.malloc size = .ok (h', p)) :
    p ≠ 0 ↔ h.Room size := by
  unfold Heap.malloc at hmalloc
  unfold Heap.Room
  by_cases hsize : size = 0
  · rw [if_pos hsize] at hmalloc
    cases hmalloc
    exact ⟨fun hne => absurd rfl hne, fun h => absurd hsize h.1⟩
  · rw [if_neg hsize] at hmalloc
    dsimp only at hmalloc ⊢
    rw [and_iff_right hsize]
    split_ifs at hmalloc ⊢ with hend
    · exact Heap.mallocBig_null hp hmalloc
    · exact Heap.mallocSmall_null hp hmalloc

end Null

/-! ### How much room there is -/

section Granted

variable {h : Heap} {arenas : List Arena} {live : List Block} {size p m n : Nat}

/-- The sizes whose sum with a header wraps around are given one page. -/
theorem pageCnt_of_wrap (hlo : 2 ^ 32 ≤ size + 11) (hhi : size < 2 ^ 32) :
    pageCnt size = pageCnt 4084 := by
  unfold pageCnt divRoundUp ARENA_SIZE PGSIZE
  omega

/-- No descriptor has blocks of more than 1024 bytes. -/
theorem Sound.findDesc_big (hs : Sound h arenas live) (hsize : 1024 < size) :
    Heap.findDesc h.mem size h.descCnt h.descs = descPtr h.descs h.descCnt := by
  have hfirst : h.descs = descPtr h.descs 0 := rfl
  have hfind := findDesc_spec hs.stored.fields size (Nat.zero_add DESC_CNT)
  rw [← hfirst, ← hs.descCnt] at hfind
  rcases hfind with ⟨l, hl, -, hle⟩ | hfind
  · have := blockSizeOf_le (hs.descCnt ▸ hl)
    omega
  · exact hfind

theorem Sound.malloc_big (hs : Sound h arenas live) (hsize : 1024 < size) :
    h.malloc size = h.mallocBig size := by
  unfold Heap.malloc
  rw [if_neg (by omega)]
  exact if_pos (hs.findDesc_big hsize)

/-- `malloc`, of any size. -/
theorem Sound.malloc_granted (hs : Sound h arenas live) (hsize : size < 2 ^ 32) :
    ∃ h' p, h.malloc size = .ok (h', p) ∧ Given h live (granted size) h' p := by
  unfold granted
  by_cases hfits : size + 11 < 2 ^ 32
  · rw [if_pos hfits]
    exact hs.malloc hfits
  · have hsame : h.malloc size = h.malloc 4084 := by
      rw [hs.malloc_big (by omega), hs.malloc_big (by omega)]
      unfold Heap.mallocBig
      rw [← show pageCnt size = divRoundUp ((size + ARENA_SIZE) % 2 ^ 32) PGSIZE from rfl,
        pageCnt_of_wrap (by omega) hsize]
      rfl
    rw [if_neg hfits, hsame]
    exact hs.malloc (by omega)

/-- Every block is smaller than the sizes that wrap around. -/
theorem Sound.cap_lt {a : Arena} (hs : Sound h arenas live) (ha : a ∈ arenas) :
    a.cap + 11 < 2 ^ 32 := by
  have htop := hs.books.top a ha
  have hbase := hs.site.aligned
  have hpos := hs.site.pos
  have hbelow := hs.site.below
  have hok := hs.books.ok a ha
  unfold Arena.addr at htop
  unfold Arena.cap
  cases hdesc : a.desc with
  | none =>
      dsimp only
      omega
  | some k =>
      have := blockSizeOf_le (hok.small k hdesc).1
      dsimp only
      omega

/-- The room in a block in use. -/
theorem Sound.blockSize_live {b : Block} (hs : Sound h arenas live) (hb : b ∈ live) :
    ∃ n, h.blockSize b.addr = .ok n ∧ b.size ≤ n ∧ n + 11 < 2 ^ 32 := by
  obtain ⟨a, ha, hblock, hcap⟩ := hs.books.housed b hb
  exact ⟨a.cap, hs.blockSize_eq ha hblock, hcap, hs.cap_lt ha⟩

/-- What is written from a block on changes neither its header nor the descriptors. -/
theorem Sound.blockSize_fill {b : Block} {c : UInt8} (hs : Sound h arenas live) (hb : b ∈ live)
    (size : Nat) :
    ∃ n, (h.setMem (h.mem.fill b.addr size c)).blockSize b.addr = .ok n ∧ n + 11 < 2 ^ 32 := by
  obtain ⟨a, ha, hblock, hcap⟩ := hs.books.housed b hb
  have hbounds := (hs.books.ok a ha).block_bounds hblock
  have hsame : h.mem.SameBut (h.mem.fill b.addr size c) fun x =>
      b.addr ≤ x ∧ x < b.addr + size := Mem.SameBut.blit _ _ _ _
  refine ⟨a.cap, ?_, hs.cap_lt ha⟩
  refine Books.blockSize_eq (h := h.setMem (h.mem.fill b.addr size c))
    hs.books hs.site ha ?_ ?_ hblock
  · refine (hs.stored.header a ha).keep hsame fun x hx hin => ?_
    unfold Arena.InHeader at hx
    omega
  · refine hs.stored.fields.keep hsame fun k hk x _ hhi hin => ?_
    have := hs.site.below
    unfold Arena.addr at hbounds
    unfold descPtr DESC_SIZE DESC_MAX DESC_CNT at *
    omega

/-- The room in the block that `malloc` returns. -/
theorem Given.room {h' : Heap} (hgiven : Given h live size h' p) (hp : p ≠ 0) :
    ∃ n, h'.blockSize p = .ok n ∧ size ≤ n ∧ n + 11 < 2 ^ 32 := by
  rcases hgiven with ⟨hnull, -⟩ | ⟨-, -, -, -, arenas', hs'⟩
  · exact absurd hnull hp
  · exact hs'.blockSize_live (b := ⟨p, size⟩) List.mem_cons_self

/-- **`malloc`.** The block has room for the request, except where the sum of the size and a
header wraps around. -/
theorem Sound.malloc_room_iff (hs : Sound h arenas live) (hsize : size < 2 ^ 32) :
    ∃ h' p, h.malloc size = .ok (h', p) ∧
      ((p ≠ 0 → ∃ n, h'.blockSize p = .ok n ∧ size ≤ n) ↔
        size + 11 < 2 ^ 32 ∨ ¬ h.FreePages 1) := by
  obtain ⟨h', p, hmalloc, hgiven⟩ := hs.malloc_granted hsize
  refine ⟨h', p, hmalloc, ?_⟩
  unfold granted at hgiven
  by_cases hfits : size + 11 < 2 ^ 32
  · rw [if_pos hfits] at hgiven
    refine ⟨fun _ => Or.inl hfits, fun _ hp => ?_⟩
    obtain ⟨n, hn, hle, -⟩ := hgiven.room hp
    exact ⟨n, hn, hle⟩
  · have hroom : p ≠ 0 ↔ h.FreePages 1 := by
      rw [hs.malloc_big (by omega)] at hmalloc
      rw [Heap.mallocBig_null hs.pooled.placed hmalloc, pageCnt_of_wrap (by omega) hsize]
      exact Iff.rfl
    rw [or_iff_right hfits, ← hroom]
    refine ⟨fun hle hp => ?_, fun hnull hp => absurd hp hnull⟩
    obtain ⟨n, hn, hle⟩ := hle hp
    obtain ⟨n', hn', -, hlt⟩ := hgiven.room hp
    rw [hn] at hn'
    cases hn'
    omega

/-- **`calloc`.** The block has room for the product and is zero, except where the product, or
its sum with a header, wraps around and the comparisons do not notice. -/
theorem Sound.calloc_room_iff (hs : Sound h arenas live) :
    ∃ h' p, h.calloc m n = .ok (h', p) ∧
      ((p ≠ 0 → (∃ k, h'.blockSize p = .ok k ∧ m * n ≤ k) ∧ ∀ i, i < m * n → h'.mem (p + i) = 0) ↔
        m * n + 11 < 2 ^ 32 ∨ m * n % 2 ^ 32 < m ∨ m * n % 2 ^ 32 < n ∨
          ¬ h.Room (m * n % 2 ^ 32)) := by
  by_cases hfits : m * n + 11 < 2 ^ 32
  · obtain ⟨h', p, hcalloc, hgiven, hzero⟩ :=
      hs.calloc (m := m) (n := n) (Nat.mod_eq_of_lt (by omega)) hfits
    refine ⟨h', p, hcalloc, fun _ => Or.inl hfits, fun _ hp => ⟨?_, hzero hp⟩⟩
    obtain ⟨k, hk, hle, -⟩ := hgiven.room hp
    exact ⟨k, hk, hle⟩
  obtain ⟨w, hw⟩ : ∃ w, m * n % 2 ^ 32 = w := ⟨_, rfl⟩
  have hlt : w < 2 ^ 32 := by
    rw [← hw]
    exact Nat.mod_lt _ (by decide)
  rw [or_iff_right hfits, ← or_assoc, hw]
  unfold Heap.calloc
  rw [hw]
  dsimp only
  by_cases hover : w < m ∨ w < n
  · rw [if_pos hover]
    exact ⟨h, 0, rfl, fun _ => Or.inl hover, fun _ hp => absurd rfl hp⟩
  · obtain ⟨h₁, p, hmalloc, hgiven⟩ := hs.malloc_granted hlt
    have hroom := Heap.malloc_null hs.pooled.placed hmalloc
    rw [if_neg hover, or_iff_right hover, ← hroom, hmalloc, ok_bind]
    dsimp only
    by_cases hp : p = 0
    · rw [if_neg (not_not.mpr hp)]
      exact ⟨h₁, p, rfl, fun _ => not_not.mpr hp, fun _ hne => absurd hp hne⟩
    · rw [if_pos hp]
      refine ⟨_, p, rfl, fun hfull => ?_, fun hnull => absurd hp hnull⟩
      obtain ⟨⟨k, hk, hle⟩, -⟩ := hfull hp
      rcases hgiven with ⟨hnull, -⟩ | ⟨-, -, -, -, arenas', hs'⟩
      · exact absurd hnull hp
      obtain ⟨k', hk', hlt'⟩ := hs'.blockSize_fill (b := ⟨p, granted w⟩) (c := 0)
        List.mem_cons_self w
      rw [hk] at hk'
      cases hk'
      omega

end Granted

/-! ### Requests of any size in a run -/

/-- A call with words for its sizes. A block that is given back is in use, and nothing is
written behind a block: `realloc` and `calloc` write as many bytes as they are asked for. -/
def Call.Words (live : List Block) : Call → Prop
  | .malloc size => size < 2 ^ 32
  | .calloc a b => a < 2 ^ 32 ∧ b < 2 ^ 32 ∧ a * b % 2 ^ 32 + 11 < 2 ^ 32
  | .realloc oldBlock newSize => (oldBlock = 0 ∨ oldBlock ∈ addrs live) ∧ newSize + 11 < 2 ^ 32
  | .free p => p = 0 ∨ p ∈ addrs live

/-- The blocks in use once the call has returned `r`, as far as they reach. -/
def Call.obtained (live : List Block) (r : Nat) : Call → List Block
  | .malloc size => if r = 0 then live else ⟨r, granted size⟩ :: live
  | .calloc a b => if r = 0 then live else ⟨r, a * b % 2 ^ 32⟩ :: live
  | .realloc oldBlock newSize => Call.after live r (.realloc oldBlock newSize)
  | .free p => release p live

/-- One step, with requests of any size. -/
inductive WordStep : Alloc → Alloc → Prop
  | call {s : Alloc} {c : Call} {h : Heap} {r : Nat} : c.Words s.live → s.heap.call c = .ok (h, r) →
      WordStep s ⟨h, c.obtained s.live r⟩
  | store {s : Alloc} {b : Block} {m : Mem} : b ∈ s.live →
      s.heap.mem.SameBut m (fun x => b.addr ≤ x ∧ x < b.addr + b.size) →
      WordStep s ⟨s.heap.setMem m, s.live⟩
  | other {s : Alloc} {h : Heap} : s.heap.Elsewhere h → WordStep s ⟨h, s.live⟩

section Runs

variable {s s' : Alloc}

theorem Given.sound {h h' : Heap} {arenas : List Arena} {live : List Block} {size p : Nat}
    (hs : Sound h arenas live) (hgiven : Given h live size h' p) :
    ∃ arenas', Sound h' arenas' (if p = 0 then live else ⟨p, size⟩ :: live) := by
  rcases hgiven with ⟨rfl, rfl⟩ | ⟨hne, -, -, -, arenas', hs'⟩
  · exact ⟨arenas, hs⟩
  · rw [if_neg hne]
    exact ⟨arenas', hs'⟩

/-- A call leaves the allocator sound, with the block that it returned among those that are
live. -/
theorem Sound.obtained {arenas : List Arena} {c : Call} {h : Heap} {r : Nat}
    (hs : Sound s.heap arenas s.live) (hc : c.Words s.live) (hcall : s.heap.call c = .ok (h, r)) :
    ∃ arenas', Sound h arenas' (c.obtained s.live r) := by
  cases c with
  | malloc size =>
      obtain ⟨h', r', hcall', hgiven⟩ := hs.malloc_granted hc
      cases hcall.symm.trans hcall'
      exact hgiven.sound hs
  | calloc a b =>
      obtain ⟨h', r', hcall', hgiven, -⟩ := hs.calloc (m := a) (n := b) rfl hc.2.2
      cases hcall.symm.trans hcall'
      exact hgiven.sound hs
  | realloc p n =>
      obtain ⟨h', r', hcall', hcase⟩ := hs.realloc hc.1 hc.2
      cases hcall.symm.trans hcall'
      unfold Call.obtained Call.after
      dsimp only
      rcases hcase with ⟨rfl, rfl, -, -, arenas', hs'⟩ |
        ⟨hn, ⟨rfl, rfl⟩ | ⟨hne, -, -, -, -, arenas', hs'⟩⟩
      · exact ⟨arenas', hs'⟩
      · rw [if_neg hn]
        exact ⟨arenas, hs⟩
      · rw [if_neg hn, if_neg hne]
        exact ⟨arenas', hs'⟩
  | free p =>
      obtain ⟨h', hfree, -, -, arenas', hs'⟩ := hs.free_or_null hc
      unfold Heap.call at hcall
      dsimp only at hcall
      rw [hfree, ok_bind] at hcall
      cases hcall
      exact ⟨arenas', hs'⟩

/-- One step. -/
theorem Sound.wordStep (hs : ∃ arenas, Sound s.heap arenas s.live) (hstep : WordStep s s') :
    ∃ arenas, Sound s'.heap arenas s'.live := by
  obtain ⟨arenas, hs⟩ := hs
  cases hstep with
  | call hc hcall => exact hs.obtained hc hcall
  | store hb hm => exact ⟨arenas, (hs.write hb hm).1⟩
  | other he => exact ⟨arenas, hs.elsewhere he⟩

/-- The allocator is in order in every state of a run. -/
theorem Sound.wordRun {m : Mem} {initRamPages userPageLimit descs : Nat} {h : Heap}
    (hmachine : Machine initRamPages descs) (hboot : boot m initRamPages userPageLimit descs = .ok h)
    (hrun : Relation.ReflTransGen WordStep ⟨h, []⟩ s) : ∃ arenas, Sound s.heap arenas s.live := by
  induction hrun with
  | refl => exact ⟨[], boot_sound hmachine hboot⟩
  | tail _ hstep ih => exact Sound.wordStep ih hstep

/-- **The room in a block.** In every state of a run from boot, for words of any size: the block
that `malloc` returns has room for the request exactly if the sum of the size and a header does
not wrap around or there is no free page, and the block that `calloc` returns has room for the
product and is zero exactly if that sum does not wrap around for the product, the comparison with
the factors fails, or there is no memory. -/
theorem malloc_calloc_room_iff {m : Mem} {initRamPages userPageLimit descs : Nat} {h : Heap}
    (hmachine : Machine initRamPages descs) (hboot : boot m initRamPages userPageLimit descs = .ok h)
    (hrun : Relation.ReflTransGen WordStep ⟨h, []⟩ s) :
    (∀ size, size < 2 ^ 32 → ∃ h' p, s.heap.malloc size = .ok (h', p) ∧
      ((p ≠ 0 → ∃ n, h'.blockSize p = .ok n ∧ size ≤ n) ↔
        size + 11 < 2 ^ 32 ∨ ¬ s.heap.FreePages 1)) ∧
    ∀ a b, a < 2 ^ 32 → b < 2 ^ 32 → ∃ h' p, s.heap.calloc a b = .ok (h', p) ∧
      ((p ≠ 0 → (∃ n, h'.blockSize p = .ok n ∧ a * b ≤ n) ∧
          ∀ i, i < a * b → h'.mem (p + i) = 0) ↔
        a * b + 11 < 2 ^ 32 ∨ a * b % 2 ^ 32 < a ∨ a * b % 2 ^ 32 < b ∨
          ¬ s.heap.Room (a * b % 2 ^ 32)) := by
  obtain ⟨arenas, hs⟩ := Sound.wordRun hmachine hboot hrun
  exact ⟨fun size hsize => hs.malloc_room_iff hsize, fun a b _ _ => hs.calloc_room_iff⟩

/-- At boot there are free pages, in one row. -/
theorem boot_freePages {m : Mem} {initRamPages userPageLimit descs cnt : Nat} {h : Heap}
    (hmachine : Machine initRamPages descs) (hlo : 258 ≤ initRamPages)
    (hboot : boot m initRamPages userPageLimit descs = .ok h) (hpos : cnt ≠ 0)
    (hcnt : cnt < (initRamPages - 256) / 2) : h.FreePages cnt := by
  obtain ⟨ram, hpalloc, hinit⟩ := bind_eq_ok hboot
  have hbelow := hmachine.below
  obtain ⟨m', hloop, -⟩ := @mallocInitLoop_spec ⟨ram, descs, 0, []⟩ 0 DESC_CNT (Nat.zero_add _)
    rfl hmachine.pos (by unfold PHYS_BASE at hbelow; dsimp only; omega) fun l hl => by omega
  have hloop : Heap.mallocInit ⟨ram, descs, 0, []⟩ = .ok _ := hloop
  rw [hloop] at hinit
  cases hinit
  obtain ⟨hbits, hfree⟩ := pallocInit_free hlo hmachine.ram hpalloc
  refine ⟨hpos, 0, ?_, fun i _ hi => hfree i ?_⟩
  · show 0 + cnt ≤ ram.kernelPool.usedMap.bitCnt
    omega
  · omega

/-- A machine with 2 MB of memory boots. -/
theorem machine_boots : Machine 512 0xc0030000 ∧
    ∃ h, boot (fun _ => 0) 512 1000 0xc0030000 = .ok h := by
  refine ⟨⟨by decide, by decide, by decide⟩, ?_⟩
  obtain ⟨ram, hpalloc⟩ := @pallocInit_ok (fun _ => 0) 512 1000 (by decide) (by decide) (by decide)
  obtain ⟨m, hinit, -⟩ := @mallocInitLoop_spec ⟨ram, 0xc0030000, 0, []⟩ 0 DESC_CNT (Nat.zero_add _)
    rfl (by dsimp only; omega) (by unfold DESC_SIZE DESC_MAX; dsimp only; omega)
    fun l hl => by omega
  unfold boot
  rw [hpalloc, ok_bind]
  exact ⟨_, hinit⟩

/-- After a request for all of the address space. -/
theorem malloc_calloc_room_iff_huge : ∃ (h h₁ : Heap) (p₁ : Nat),
    boot (fun _ => 0) 512 1000 0xc0030000 = .ok h ∧ h.malloc (2 ^ 32 - 1) = .ok (h₁, p₁) ∧
    (∀ size, size < 2 ^ 32 → ∃ h' p, h₁.malloc size = .ok (h', p) ∧
      ((p ≠ 0 → ∃ n, h'.blockSize p = .ok n ∧ size ≤ n) ↔
        size + 11 < 2 ^ 32 ∨ ¬ h₁.FreePages 1)) ∧
    ∀ a b, a < 2 ^ 32 → b < 2 ^ 32 → ∃ h' p, h₁.calloc a b = .ok (h', p) ∧
      ((p ≠ 0 → (∃ n, h'.blockSize p = .ok n ∧ a * b ≤ n) ∧
          ∀ i, i < a * b → h'.mem (p + i) = 0) ↔
        a * b + 11 < 2 ^ 32 ∨ a * b % 2 ^ 32 < a ∨ a * b % 2 ^ 32 < b ∨
          ¬ h₁.Room (a * b % 2 ^ 32)) := by
  obtain ⟨hmachine, h, hboot⟩ := machine_boots
  have hword : 2 ^ 32 - 1 < 2 ^ 32 := by decide
  obtain ⟨h₁, p₁, hcall, -⟩ := (boot_sound hmachine hboot).malloc_granted hword
  have hstep : WordStep ⟨h, []⟩ ⟨h₁, _⟩ := .call (c := .malloc (2 ^ 32 - 1)) hword hcall
  exact ⟨h, h₁, p₁, hboot, hcall, malloc_calloc_room_iff hmachine hboot (.single hstep)⟩

/-- Blocks that are too small: for all of the address space but a byte, and for a product that
wraps around to more than its factors. -/
theorem malloc_calloc_wrap : ∃ h, boot (fun _ => 0) 512 1000 0xc0030000 = .ok h ∧
    (∃ h' p n, h.malloc (2 ^ 32 - 1) = .ok (h', p) ∧ p ≠ 0 ∧ h'.blockSize p = .ok n ∧
      ¬ 2 ^ 32 - 1 ≤ n) ∧
    ∃ h' p n, h.calloc 65537 65537 = .ok (h', p) ∧ p ≠ 0 ∧ h'.blockSize p = .ok n ∧
      ¬ 65537 * 65537 ≤ n := by
  obtain ⟨hmachine, h, hboot⟩ := machine_boots
  have hs := boot_sound hmachine hboot
  have hfree : ∀ cnt, cnt ≠ 0 → cnt < 128 → h.FreePages cnt := fun cnt hpos hcnt =>
    boot_freePages hmachine (by decide) hboot hpos hcnt
  refine ⟨h, hboot, ?_, ?_⟩
  · obtain ⟨h', p, hmalloc, hgiven⟩ := hs.malloc_granted (show 2 ^ 32 - 1 < 2 ^ 32 by decide)
    have hp : p ≠ 0 := by
      rw [hs.malloc_big (by decide)] at hmalloc
      rw [Heap.mallocBig_null hs.pooled.placed hmalloc, pageCnt_of_wrap (by decide) (by decide)]
      exact hfree 1 (by decide) (by decide)
    obtain ⟨n, hn, -, hlt⟩ := hgiven.room hp
    exact ⟨h', p, n, hmalloc, hp, hn, by omega⟩
  · have hroom : h.Room 131073 := by
      unfold Heap.Room
      rw [hs.findDesc_big (by decide)]
      dsimp only
      rw [if_pos rfl]
      exact ⟨by decide, hfree 33 (by decide) (by decide)⟩
    obtain ⟨h', p, hcalloc, hgiven, -⟩ :=
      hs.calloc (show 65537 * 65537 % 2 ^ 32 = 131073 by decide) (by decide)
    obtain ⟨h₁, p₁, hmalloc, -⟩ := hs.malloc_granted (show 131073 < 2 ^ 32 by decide)
    have hp : p ≠ 0 := by
      have hp₁ := (Heap.malloc_null hs.pooled.placed hmalloc).mpr hroom
      unfold Heap.calloc at hcalloc
      have hmod : 65537 * 65537 % 2 ^ 32 = 131073 := by decide
      rw [hmod] at hcalloc
      dsimp only at hcalloc
      rw [if_neg (by decide), hmalloc, ok_bind] at hcalloc
      dsimp only at hcalloc
      rw [if_pos hp₁] at hcalloc
      cases hcalloc
      exact hp₁
    obtain ⟨n, hn, -, hlt⟩ := hgiven.room hp
    exact ⟨h', p, n, hcalloc, hp, hn, by omega⟩

end Runs

end OsTools.Threads

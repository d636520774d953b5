import Mathlib.Data.List.Basic
import Mathlib.Data.List.Pairwise
import Mathlib.Tactic.Ring
import OsTools.Threads.Malloc
/-!
# OsTools.Threads.Arenas

What the memory of `malloc` is divided into, apart from any bytes: arenas are groups
of pages of the pool at `base`, and hold either equal blocks for one descriptor or
one big block. `Books` is the state of the allocator at this level: the arenas and
the blocks in use.

No two arenas share a byte, so that a byte of a block determines the block
(`Books.block_unique`).

Counting is done here too, since it does not depend on memory: `Gains` relates two lists of
blocks in use that differ in one block, and from it follow the free blocks of each
descriptor and the number of free blocks of each arena, before and after. `malloc` and
`free` read it in opposite directions.
-/

namespace OsTools.Threads

/-- The block size of descriptor number `k`. -/
def blockSizeOf (k : Nat) : Nat := 16 * 2 ^ k

/-- The number of blocks in an arena of descriptor number `k`. -/
def blocksOf (k : Nat) : Nat := 4084 / blockSizeOf k

/-- The number of descriptors. -/
def DESC_CNT : Nat := 7

/-- An arena: its first page, the number of its pages, and the number of its
descriptor, if it is not that of a big block. -/
structure Arena where
  page : Nat
  pages : Nat
  desc : Option Nat
  deriving DecidableEq

/-- A block in use: its address and the size that was asked for. -/
structure Block where
  addr : Nat
  size : Nat
  deriving DecidableEq

theorem blockSizeOf_ge (k : Nat) : 16 ≤ blockSizeOf k := by
  have : 0 < 2 ^ k := Nat.two_pow_pos k
  unfold blockSizeOf
  omega

theorem blockSizeOf_le {k : Nat} (hk : k < DESC_CNT) : blockSizeOf k ≤ 1024 := by
  have : 2 ^ k ≤ 2 ^ 6 := Nat.pow_le_pow_right (by decide) (by unfold DESC_CNT at hk; omega)
  unfold blockSizeOf
  omega

theorem blocksOf_pos {k : Nat} (hk : k < DESC_CNT) : 0 < blocksOf k :=
  Nat.div_pos (by have := blockSizeOf_le hk; omega) (by have := blockSizeOf_ge k; omega)

theorem blocksOf_le (k : Nat) : blocksOf k ≤ 4084 := Nat.div_le_self _ _

/-- The blocks of an arena fit into its page. -/
theorem blocks_fit {k j : Nat} (hj : j < blocksOf k) : j * blockSizeOf k + blockSizeOf k ≤ 4084 := by
  have hle : (j + 1) * blockSizeOf k ≤ blocksOf k * blockSizeOf k := Nat.mul_le_mul_right _ hj
  have htotal : blocksOf k * blockSizeOf k ≤ 4084 := Nat.div_mul_le_self _ _
  rw [Nat.add_mul, Nat.one_mul] at hle
  omega

namespace Arena

variable {base b x y : Nat} {a : Arena}

/-- The address of the header. -/
def addr (base : Nat) (a : Arena) : Nat := base + 4096 * a.page

/-- The address of block number `j`, in an arena of descriptor number `k`. -/
def slot (base : Nat) (a : Arena) (k j : Nat) : Nat := a.addr base + 12 + j * blockSizeOf k

/-- `b` is the address of a block of the arena. -/
def IsBlock (base : Nat) (a : Arena) (b : Nat) : Prop :=
  match a.desc with
  | some k => ∃ j, j < blocksOf k ∧ b = a.slot base k j
  | none => b = a.addr base + 12

/-- The number of bytes in a block of the arena. -/
def cap (a : Arena) : Nat :=
  match a.desc with
  | some k => blockSizeOf k
  | none => 4096 * a.pages - 12

/-- An arena that `malloc` can set up. -/
structure Ok (a : Arena) : Prop where
  pos : 0 < a.pages
  small : ∀ k, a.desc = some k → k < DESC_CNT ∧ a.pages = 1

/-- Two arenas have no page in common. -/
def Apart (a c : Arena) : Prop := a.page + a.pages ≤ c.page ∨ c.page + c.pages ≤ a.page

/-- `x` is a byte of a header. -/
def InHeader (base : Nat) (a : Arena) (x : Nat) : Prop :=
  a.addr base ≤ x ∧ x < a.addr base + 12

/-- `x` is a byte of the block at `b`. -/
def InBlock (a : Arena) (b x : Nat) : Prop := b ≤ x ∧ x < b + a.cap

theorem Ok.cap_ge (h : a.Ok) : 16 ≤ a.cap := by
  have := h.pos
  unfold cap
  cases a.desc with
  | none => dsimp only; omega
  | some k => exact blockSizeOf_ge k

/-- The blocks of an arena lie behind its header, in its pages. -/
theorem Ok.block_bounds (h : a.Ok) (hb : a.IsBlock base b) :
    a.addr base + 12 ≤ b ∧ b + a.cap ≤ a.addr base + 4096 * a.pages := by
  have hpos := h.pos
  unfold IsBlock at hb
  unfold cap
  cases hd : a.desc with
  | none =>
      rw [hd] at hb
      dsimp only at hb ⊢
      omega
  | some k =>
      rw [hd] at hb
      obtain ⟨j, hj, rfl⟩ := hb
      have hfit := blocks_fit hj
      have hone := (h.small k hd).2
      unfold slot
      dsimp only
      omega

/-- A byte of an arena's page belongs to no arena that lies apart. -/
theorem Apart.not_both {c : Arena} (h : a.Apart c)
    (ha : a.addr base ≤ x ∧ x < a.addr base + 4096 * a.pages)
    (hc : c.addr base ≤ x ∧ x < c.addr base + 4096 * c.pages) : False := by
  unfold Apart at h
  unfold addr at ha hc
  omega

/-- Two blocks of an arena that share a byte. -/
theorem block_unique {b' : Nat} (hb : a.IsBlock base b) (hb' : a.IsBlock base b')
    (hx : a.InBlock b x) (hx' : a.InBlock b' x) : b = b' := by
  unfold IsBlock at hb hb'
  unfold InBlock cap at hx hx'
  cases hd : a.desc with
  | none =>
      rw [hd] at hb hb'
      exact hb.trans hb'.symm
  | some k =>
      rw [hd] at hb hb' hx hx'
      obtain ⟨i, -, rfl⟩ := hb
      obtain ⟨j, -, rfl⟩ := hb'
      dsimp only at hx hx'
      unfold slot at *
      have hge := blockSizeOf_ge k
      -- the number of the block is the quotient of the offset behind the header
      have hquot : ∀ n, n * blockSizeOf k ≤ x - (a.addr base + 12) →
          x - (a.addr base + 12) < n * blockSizeOf k + blockSizeOf k →
          (x - (a.addr base + 12)) / blockSizeOf k = n := by
        intro n hlo hhi
        refine Nat.div_eq_of_lt_le hlo ?_
        rwa [Nat.add_mul, Nat.one_mul]
      have hi := hquot i (by omega) (by omega)
      have hj := hquot j (by omega) (by omega)
      rw [← hi, hj]

theorem slot_inj {k i j : Nat} (h : a.slot base k i = a.slot base k j) : i = j := by
  unfold slot at h
  exact Nat.eq_of_mul_eq_mul_right (by have := blockSizeOf_ge k; omega) (Nat.add_left_cancel h)

theorem isBlock_iff {k : Nat} (h : a.desc = some k) :
    a.IsBlock base b ↔ ∃ j, j < blocksOf k ∧ b = a.slot base k j := by
  unfold IsBlock
  rw [h]

theorem cap_eq {k : Nat} (h : a.desc = some k) : a.cap = blockSizeOf k := by
  unfold cap
  rw [h]

end Arena

/-! ### The arenas and the blocks in use -/

/-- The addresses of the blocks in use. -/
def addrs (live : List Block) : List Nat := live.map Block.addr

/-- `b` is a free block of descriptor number `k`. -/
def FreeBlock (base : Nat) (arenas : List Arena) (live : List Block) (k b : Nat) : Prop :=
  (∃ a ∈ arenas, a.desc = some k ∧ a.IsBlock base b) ∧ b ∉ addrs live

/-- The number of free blocks in an arena of descriptor number `k`. -/
def freeCnt (base : Nat) (live : List Block) (a : Arena) (k : Nat) : Nat :=
  (List.range (blocksOf k)).countP fun j => decide (a.slot base k j ∉ addrs live)

/-- The state of the allocator. -/
structure Books (base : Nat) (arenas : List Arena) (live : List Block) : Prop where
  ok : ∀ a ∈ arenas, a.Ok
  apart : arenas.Pairwise Arena.Apart
  top : ∀ a ∈ arenas, a.addr base + 4096 * a.pages ≤ 2 ^ 32
  housed : ∀ b ∈ live, ∃ a ∈ arenas, a.IsBlock base b.addr ∧ b.size ≤ a.cap
  nodup : (addrs live).Nodup

/-- Every arena of a descriptor has a block in use. -/
def AllUsed (base : Nat) (arenas : List Arena) (live : List Block) : Prop :=
  ∀ a ∈ arenas, ∀ k, a.desc = some k → ∃ j, j < blocksOf k ∧ a.slot base k j ∈ addrs live

namespace Books

variable {base k x b : Nat} {arenas : List Arena} {live : List Block} {a c : Arena}

/-- The arena that a byte belongs to. -/
theorem arena_unique (h : Books base arenas live) (ha : a ∈ arenas) (hc : c ∈ arenas)
    (hxa : a.addr base ≤ x ∧ x < a.addr base + 4096 * a.pages)
    (hxc : c.addr base ≤ x ∧ x < c.addr base + 4096 * c.pages) : a = c := by
  by_contra hne
  have hsymm : Std.Symm Arena.Apart := ⟨fun _ _ hac => Or.symm hac⟩
  exact (h.apart.forall ha hc hne).not_both hxa hxc

/-- The block that a byte belongs to, and its arena. -/
theorem block_unique (h : Books base arenas live) {b' : Nat} (ha : a ∈ arenas) (hc : c ∈ arenas)
    (hb : a.IsBlock base b) (hb' : c.IsBlock base b') (hx : a.InBlock b x) (hx' : c.InBlock b' x) :
    a = c ∧ b = b' := by
  have h₁ := (h.ok a ha).block_bounds hb
  have h₂ := (h.ok c hc).block_bounds hb'
  unfold Arena.InBlock at *
  have hac : a = c := h.arena_unique (x := x) ha hc (by omega) (by omega)
  subst hac
  exact ⟨rfl, Arena.block_unique hb hb' hx hx'⟩

/-- A byte of a header belongs to no block. -/
theorem header_block (h : Books base arenas live) (ha : a ∈ arenas) (hc : c ∈ arenas)
    (hb : a.IsBlock base b) (hx : a.InBlock b x) (hx' : c.InHeader base x) : False := by
  have h₁ := (h.ok a ha).block_bounds hb
  have hpos := (h.ok c hc).pos
  unfold Arena.InBlock at hx
  unfold Arena.InHeader at hx'
  have hac : a = c := h.arena_unique (x := x) ha hc (by omega) (by omega)
  subst hac
  omega

/-- Two blocks lie apart. -/
theorem block_apart (h : Books base arenas live) {b' : Nat} (ha : a ∈ arenas) (hc : c ∈ arenas)
    (hb : a.IsBlock base b) (hb' : c.IsBlock base b') (hne : b ≠ b') :
    b + a.cap ≤ b' ∨ b' + c.cap ≤ b := by
  have h₁ := (h.ok a ha).cap_ge
  have h₂ := (h.ok c hc).cap_ge
  by_contra hno
  refine hne (h.block_unique (x := max b b') ha hc hb hb' ?_ ?_).2 <;>
    unfold Arena.InBlock <;> omega

end Books

/-! ### Taking a block and giving it back -/

/-- The blocks without the one at `p`. -/
def release (p : Nat) (live : List Block) : List Block := live.filter fun b => b.addr ≠ p

/-- In `live'` the block at `p` is in use as well. -/
def Gains (live live' : List Block) (p : Nat) : Prop :=
  p ∉ addrs live ∧ ∀ x, x ∈ addrs live' ↔ x = p ∨ x ∈ addrs live

section Gains

variable {base k p x : Nat} {arenas : List Arena} {live live' : List Block} {a : Arena}

theorem gains_cons {b : Block} (h : b.addr ∉ addrs live) : Gains live (b :: live) b.addr :=
  ⟨h, fun _ => List.mem_cons⟩

theorem mem_addrs_release : x ∈ addrs (release p live) ↔ x ∈ addrs live ∧ x ≠ p := by
  unfold addrs release
  simp only [List.mem_map, List.mem_filter, decide_eq_true_eq]
  constructor
  · rintro ⟨b, ⟨hb, hne⟩, rfl⟩
    exact ⟨⟨b, hb, rfl⟩, hne⟩
  · rintro ⟨⟨b, hb, rfl⟩, hne⟩
    exact ⟨b, ⟨hb, hne⟩, rfl⟩

theorem gains_release (h : p ∈ addrs live) : Gains (release p live) live p := by
  refine ⟨fun hmem => (mem_addrs_release.mp hmem).2 rfl, fun x => ?_⟩
  rw [mem_addrs_release]
  constructor
  · intro hx
    by_cases hxp : x = p
    · exact Or.inl hxp
    · exact Or.inr ⟨hx, hxp⟩
  · rintro (rfl | ⟨hx, -⟩)
    · exact h
    · exact hx

/-- The free blocks that are left. -/
theorem Gains.freeBlock_iff (h : Gains live live' p) :
    FreeBlock base arenas live' k x ↔ FreeBlock base arenas live k x ∧ x ≠ p := by
  unfold FreeBlock
  rw [h.2 x, not_or]
  constructor
  · rintro ⟨hx, hne, hfree⟩
    exact ⟨⟨hx, hfree⟩, hne⟩
  · rintro ⟨⟨hx, hfree⟩, hne⟩
    exact ⟨hx, hne, hfree⟩

/-- A predicate that fails at one more index below `n`. -/
theorem countP_range_succ {n j : Nat} {f g : Nat → Bool} (hj : j < n) (hf : f j = true)
    (hg : g j = false) (hfg : ∀ i, i ≠ j → f i = g i) :
    (List.range n).countP f = (List.range n).countP g + 1 := by
  have hperm := List.perm_cons_erase (List.mem_range.mpr hj)
  have hrest : ((List.range n).erase j).countP f = ((List.range n).erase j).countP g := by
    refine List.countP_congr fun i hi => ?_
    rw [hfg i (List.nodup_range.mem_erase_iff.mp hi).1]
  rw [hperm.countP_eq f, hperm.countP_eq g, List.countP_cons, List.countP_cons, hf, hg, hrest]
  simp

/-- The arena of the block has one free block less. -/
theorem Gains.freeCnt_eq {j : Nat} (h : Gains live live' p) (hj : j < blocksOf k)
    (hp : p = a.slot base k j) : freeCnt base live a k = freeCnt base live' a k + 1 := by
  unfold freeCnt
  refine countP_range_succ hj ?_ ?_ fun i hi => ?_
  · rw [← hp]
    exact decide_eq_true h.1
  · rw [← hp]
    exact decide_eq_false (not_not.mpr ((h.2 p).mpr (Or.inl rfl)))
  · rw [decide_eq_decide, h.2, not_or]
    exact ⟨fun hfree => ⟨fun heq => hi (Arena.slot_inj (heq.trans hp)), hfree⟩,
      fun hfree => hfree.2⟩

/-- The other arenas have as many as before. -/
theorem Gains.freeCnt_of_ne (h : Gains live live' p)
    (hp : ∀ j, j < blocksOf k → a.slot base k j ≠ p) :
    freeCnt base live' a k = freeCnt base live a k := by
  unfold freeCnt
  refine List.countP_congr fun j hj => ?_
  rw [decide_eq_true_iff, decide_eq_true_iff, h.2, not_or]
  exact ⟨fun hfree => hfree.2, fun hfree => ⟨hp j (List.mem_range.mp hj), hfree⟩⟩

end Gains

/-- No more blocks are free than there are. -/
theorem freeCnt_le (base : Nat) (live : List Block) (a : Arena) (k : Nat) :
    freeCnt base live a k ≤ blocksOf k := by
  unfold freeCnt
  refine Nat.le_trans List.countP_le_length ?_
  rw [List.length_range]

/-- All blocks of an arena are free exactly when the count says so. -/
theorem freeCnt_eq_blocksOf {base k : Nat} {live : List Block} {a : Arena} :
    freeCnt base live a k = blocksOf k ↔ ∀ j, j < blocksOf k → a.slot base k j ∉ addrs live := by
  have hall : freeCnt base live a k = (List.range (blocksOf k)).length ↔
      ∀ j ∈ List.range (blocksOf k), decide (a.slot base k j ∉ addrs live) = true :=
    List.countP_eq_length
  rw [List.length_range] at hall
  rw [hall]
  constructor
  · intro h j hj
    exact of_decide_eq_true (h j (List.mem_range.mpr hj))
  · intro h j hj
    exact decide_eq_true (h j (List.mem_range.mp hj))

end OsTools.Threads

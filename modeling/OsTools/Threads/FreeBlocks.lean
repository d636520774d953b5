import OsTools.Threads.Arenas
/-!
# OsTools.Threads.FreeBlocks

How the arenas and the free blocks lie in memory. `Stored` says that the descriptors,
the headers of the arenas and the free lists in memory are those of given `Books`.
The bytes of one free list (`FreeBytes`) lie apart from the descriptors' fields, the
headers, the other free lists and the blocks in use, so that each operation on a free
list keeps all of these.

All loops over the blocks of an arena are here as well. Their invariants are about the free
list only: the blocks that are still to come are cells apart from it, so that the lemmas of
`Kernel.Lists` for a push and a removal apply at each pass.
-/

namespace OsTools.Threads

open Kernel Vm Mem

/-- The descriptors and the pool do not overlap. -/
structure Site (descs base : Nat) : Prop where
  pos : 0 < descs
  below : descs + DESC_SIZE * DESC_MAX ≤ base
  aligned : base % 4096 = 0

/-- The fields of the descriptors. -/
def FieldsOk (m : Mem) (descs : Nat) : Prop :=
  ∀ k, k < DESC_CNT → descBlockSize m (descPtr descs k) = blockSizeOf k ∧
    descBlocksPerArena m (descPtr descs k) = blocksOf k

/-- What the `desc` of an arena's header is. -/
def Arena.descAddr (descs : Nat) (a : Arena) : Nat :=
  match a.desc with
  | some k => descPtr descs k
  | none => 0

/-- The header of the arena `a`, with `n` in `free_cnt`. -/
structure HeaderOk (m : Mem) (descs base : Nat) (a : Arena) (n : Nat) : Prop where
  magic : arenaMagic m (a.addr base) = ARENA_MAGIC
  desc : arenaDesc m (a.addr base) = a.descAddr descs
  freeCnt : arenaFreeCnt m (a.addr base) = n

/-- What is in `free_cnt`: the number of free blocks, or that of the pages of a big
block. -/
def cntOf (base : Nat) (live : List Block) (a : Arena) : Nat :=
  match a.desc with
  | some k => freeCnt base live a k
  | none => a.pages

/-- The address of the free list of descriptor number `k`. -/
def freeListAt (descs k : Nat) : Nat := descFreeList (descPtr descs k)

/-- Memory holds what the books say. -/
structure Stored (m : Mem) (descs base : Nat) (arenas : List Arena) (live : List Block) : Prop where
  fields : FieldsOk m descs
  header : ∀ a ∈ arenas, HeaderOk m descs base a (cntOf base live a)
  lists : ∀ k, k < DESC_CNT → Holds m (freeListAt descs k) (FreeBlock base arenas live k)

/-- The blocks in use have their contents in both memories. -/
def SameBlocks (live : List Block) (m m' : Mem) : Prop :=
  ∀ b ∈ live, ∀ i, i < b.size → m' (b.addr + i) = m (b.addr + i)

/-- The bytes of the free list of descriptor number `k` and of its blocks. -/
def FreeBytes (descs base : Nat) (arenas : List Arena) (live : List Block) (k x : Nat) : Prop :=
  (freeListAt descs k ≤ x ∧ x < freeListAt descs k + 16) ∨
    ∃ a ∈ arenas, a.desc = some k ∧ ∃ b, a.IsBlock base b ∧ b ∉ addrs live ∧ a.InBlock b x

section Bytes

variable {m m' : Mem} {descs base k k' x b n : Nat} {arenas : List Arena} {live : List Block}
  {a c : Arena} {P : Nat → Prop}

theorem SameBlocks.refl (live : List Block) (m : Mem) : SameBlocks live m m := fun _ _ _ _ => rfl

theorem SameBlocks.trans {m₁ : Mem} (h₁ : SameBlocks live m m₁) (h₂ : SameBlocks live m₁ m') :
    SameBlocks live m m' := fun b hb i hi => (h₂ b hb i hi).trans (h₁ b hb i hi)

theorem SameBlocks.mono {live' : List Block} (h : SameBlocks live m m')
    (hsub : ∀ b ∈ live', b ∈ live) : SameBlocks live' m m' := fun b hb => h b (hsub b hb)

theorem SameBlocks.of_sameBut (h : m.SameBut m' P)
    (hP : ∀ b ∈ live, ∀ x, b.addr ≤ x → x < b.addr + b.size → ¬ P x) : SameBlocks live m m' :=
  fun b hb i hi => h _ (hP b hb _ (by omega) (by omega))

/-! ### Frames -/

theorem FieldsOk.keep (h : FieldsOk m descs) (hm : m.SameBut m' P)
    (hP : ∀ k, k < DESC_CNT → ∀ x, descPtr descs k ≤ x → x < descPtr descs k + 8 → ¬ P x) :
    FieldsOk m' descs := by
  intro k hk
  unfold descBlockSize descBlocksPerArena
  rw [hm.load fun i hi => hP k hk _ (by omega) (by omega),
    hm.load fun i hi => hP k hk _ (by omega) (by omega)]
  exact h k hk

theorem HeaderOk.keep (h : HeaderOk m descs base a n) (hm : m.SameBut m' P)
    (hP : ∀ x, a.InHeader base x → ¬ P x) : HeaderOk m' descs base a n := by
  have hsame : ∀ i j, i + j ≤ 12 → m'.load (a.addr base + i) j = m.load (a.addr base + i) j := by
    intro i j hij
    refine hm.load fun l hl => hP _ ?_
    unfold Arena.InHeader
    omega
  refine ⟨?_, ?_, ?_⟩
  · unfold arenaMagic
    rw [← Nat.add_zero (a.addr base), hsame 0 4 (by omega)]
    exact h.magic
  · unfold arenaDesc
    rw [hsame 4 4 (by omega)]
    exact h.desc
  · unfold arenaFreeCnt
    rw [hsame 8 4 (by omega)]
    exact h.freeCnt

theorem listBytes_freeBytes {F : Nat → Prop} (hbooks : Books base arenas live)
    (hF : ∀ b, F b → FreeBlock base arenas live k b) (hx : ListBytes (freeListAt descs k) F x) :
    FreeBytes descs base arenas live k x := by
  rcases hx with hx | ⟨b, hb, hlo, hhi⟩
  · exact Or.inl hx
  · obtain ⟨⟨a, ha, hdesc, hblock⟩, hfree⟩ := hF b hb
    have hcap := (hbooks.ok a ha).cap_ge
    exact Or.inr ⟨a, ha, hdesc, b, hblock, hfree, hlo, by omega⟩

/-- The bytes of a free list lie among the descriptors or behind a header. -/
theorem FreeBytes.bounds (h : FreeBytes descs base arenas live k x) (hsite : Site descs base)
    (hbooks : Books base arenas live) (hk : k < DESC_CNT) :
    (descPtr descs k + 8 ≤ x ∧ x < descPtr descs k + 24 ∧ x < base) ∨ base ≤ x := by
  have := hsite.below
  have hk : k < 7 := hk
  rcases h with ⟨hlo, hhi⟩ | ⟨a, ha, -, b, hblock, -, hlo, -⟩
  · unfold freeListAt descFreeList at hlo hhi
    unfold descPtr DESC_SIZE DESC_MAX at *
    omega
  · have := (hbooks.ok a ha).block_bounds hblock
    unfold Arena.addr at this
    omega

theorem FreeBytes.not_field (h : FreeBytes descs base arenas live k x) (hsite : Site descs base)
    (hbooks : Books base arenas live) (hk : k < DESC_CNT) (hk' : k' < DESC_CNT)
    (hlo : descPtr descs k' ≤ x) (hhi : x < descPtr descs k' + 8) : False := by
  have := hsite.below
  have := h.bounds hsite hbooks hk
  unfold descPtr DESC_SIZE DESC_MAX DESC_CNT at *
  omega

theorem FreeBytes.not_header (h : FreeBytes descs base arenas live k x) (hsite : Site descs base)
    (hbooks : Books base arenas live) (hk : k < DESC_CNT) (hc : c ∈ arenas)
    (hx : c.InHeader base x) : False := by
  rcases h with ⟨hlo, hhi⟩ | ⟨a, ha, -, b, hblock, -, hin⟩
  · have := hsite.below
    unfold Arena.InHeader Arena.addr at hx
    unfold freeListAt descFreeList descPtr DESC_SIZE DESC_MAX DESC_CNT at *
    omega
  · exact hbooks.header_block ha hc hblock hin hx

theorem FreeBytes.not_other (h : FreeBytes descs base arenas live k x) (hsite : Site descs base)
    (hbooks : Books base arenas live) (hk : k < DESC_CNT) (hk' : k' < DESC_CNT) (hne : k ≠ k')
    (h' : FreeBytes descs base arenas live k' x) : False := by
  have hlow := h.bounds hsite hbooks hk
  have hlow' := h'.bounds hsite hbooks hk'
  have := hsite.below
  rcases h with hin | ⟨a, ha, hdesc, b, hblock, -, hin⟩
  · unfold freeListAt descFreeList descPtr DESC_SIZE DESC_MAX DESC_CNT at *
    omega
  · rcases h' with hin' | ⟨c, hc, hdesc', b', hblock', -, hin'⟩
    · unfold freeListAt descFreeList descPtr DESC_SIZE DESC_MAX DESC_CNT at *
      omega
    · obtain ⟨rfl, -⟩ := hbooks.block_unique ha hc hblock hblock' hin hin'
      exact hne (Option.some.inj (hdesc.symm.trans hdesc'))

theorem FreeBytes.not_live (h : FreeBytes descs base arenas live k x) (hsite : Site descs base)
    (hbooks : Books base arenas live) (hk : k < DESC_CNT) {b : Block} (hb : b ∈ live)
    (hlo : b.addr ≤ x) (hhi : x < b.addr + b.size) : False := by
  obtain ⟨c, hc, hblock, hcap⟩ := hbooks.housed b hb
  have hbounds := (hbooks.ok c hc).block_bounds hblock
  rcases h with hin | ⟨a, ha, -, b', hblock', hfree, hin⟩
  · have := hsite.below
    unfold Arena.addr at hbounds
    unfold freeListAt descFreeList descPtr DESC_SIZE DESC_MAX DESC_CNT at *
    omega
  · obtain ⟨-, heq⟩ := hbooks.block_unique ha hc hblock' hblock hin ⟨hlo, by omega⟩
    exact hfree (List.mem_map.mpr ⟨b, hb, heq.symm⟩)

/-- A header and the blocks in use. -/
theorem header_not_live (hbooks : Books base arenas live) (ha : a ∈ arenas)
    (hx : a.InHeader base x) {b : Block} (hb : b ∈ live) (hlo : b.addr ≤ x)
    (hhi : x < b.addr + b.size) : False := by
  obtain ⟨c, hc, hblock, hcap⟩ := hbooks.housed b hb
  exact hbooks.header_block hc ha hblock ⟨hlo, by omega⟩ hx

/-- Two headers. -/
theorem header_not_header (hbooks : Books base arenas live) (ha : a ∈ arenas) (hc : c ∈ arenas)
    (hne : a ≠ c) (hx : a.InHeader base x) (hx' : c.InHeader base x) : False := by
  have h₁ := (hbooks.ok a ha).pos
  have h₂ := (hbooks.ok c hc).pos
  unfold Arena.InHeader at *
  exact hne (hbooks.arena_unique (x := x) ha hc (by omega) (by omega))

/-- A header and the fields of a descriptor. -/
theorem header_not_field (hsite : Site descs base) (hk : k < DESC_CNT) (hx : a.InHeader base x)
    (hhi : x < descPtr descs k + 8) : False := by
  have := hsite.below
  unfold Arena.InHeader Arena.addr at hx
  unfold descPtr DESC_SIZE DESC_MAX DESC_CNT at *
  omega

end Bytes

/-! ### The functions on one arena -/

section Ops

variable {m : Mem} {descs base k b n i j : Nat} {arenas : List Arena} {live : List Block}
  {a : Arena} {F : Nat → Prop}

theorem cell_bounds (hbooks : Books base arenas live) (ha : a ∈ arenas)
    (hb : a.IsBlock base b) : 0 < b ∧ b + 8 ≤ 2 ^ 32 := by
  have hbounds := (hbooks.ok a ha).block_bounds hb
  have hcap := (hbooks.ok a ha).cap_ge
  have := hbooks.top a ha
  omega

/-- `block_to_arena`. A block starts in the first page of its arena, at a multiple of its size
behind the header, which is what the assertions check; so rounding down gives the arena. -/
theorem blockToArena_eq (hsite : Site descs base) (hbooks : Books base arenas live)
    (ha : a ∈ arenas) (hhead : HeaderOk m descs base a n) (hfields : FieldsOk m descs)
    (hb : a.IsBlock base b) : blockToArena m b = .ok (a.addr base) := by
  have hok := hbooks.ok a ha
  have haligned := hsite.aligned
  have hpos : 0 < a.addr base := by
    have := hsite.pos
    have := hsite.below
    unfold Arena.addr
    omega
  -- every block starts in the first page of its arena, at a multiple of the block size
  have hofs : a.addr base ≤ b ∧ b < a.addr base + 4096 ∧
      (arenaDesc m (a.addr base) = 0 ∨
        sub32 (pgOfs b) ARENA_SIZE % descBlockSize m (arenaDesc m (a.addr base)) = 0) ∧
      (arenaDesc m (a.addr base) ≠ 0 ∨ pgOfs b = ARENA_SIZE) := by
    rw [hhead.desc]
    unfold Arena.IsBlock at hb
    unfold Arena.descAddr
    cases hd : a.desc with
    | none =>
        rw [hd] at hb
        have hb : b = a.addr base + 12 := hb
        refine ⟨by omega, by omega, Or.inl rfl, Or.inr ?_⟩
        unfold pgOfs PGSIZE ARENA_SIZE Arena.addr at *
        omega
    | some k =>
        rw [hd] at hb
        obtain ⟨j, hj, hslot⟩ := hb
        have hfit := blocks_fit hj
        have hge := blockSizeOf_ge k
        have hk := (hok.small k hd).1
        unfold Arena.slot at hslot
        have hdist : pgOfs b = 12 + j * blockSizeOf k := by
          unfold pgOfs PGSIZE Arena.addr at *
          omega
        have hdesc : descPtr descs k ≠ 0 := by
          have := hsite.pos
          unfold descPtr
          omega
        refine ⟨by omega, by omega, Or.inr ?_, Or.inl hdesc⟩
        dsimp only
        rw [(hfields k hk).1, hdist]
        have hsub : sub32 (12 + j * blockSizeOf k) ARENA_SIZE = j * blockSizeOf k := by
          unfold sub32 ARENA_SIZE
          omega
        rw [hsub]
        exact Nat.mul_mod_left j _
  have hround : pgRoundDown b = a.addr base := by
    unfold pgRoundDown PGSIZE Arena.addr at *
    omega
  unfold blockToArena
  dsimp only
  rw [hround, if_neg (by omega), if_neg (not_not.mpr hhead.magic), if_neg (not_not.mpr hofs.2.2.1),
    if_neg (not_not.mpr hofs.2.2.2)]

/-- `arena_to_block`. -/
theorem arenaToBlock_eq (hsite : Site descs base) (hk : k < DESC_CNT) (hdesc : a.desc = some k)
    (hhead : HeaderOk m descs base a n) (hfields : FieldsOk m descs) (hj : j < blocksOf k) :
    arenaToBlock m (a.addr base) j = .ok (a.slot base k j) := by
  have haddr : a.descAddr descs = descPtr descs k := by
    unfold Arena.descAddr
    rw [hdesc]
  have hpos : a.addr base ≠ 0 := by
    have := hsite.pos
    have := hsite.below
    unfold Arena.addr
    omega
  unfold arenaToBlock
  rw [if_neg hpos, if_neg (not_not.mpr hhead.magic), hhead.desc, haddr, (hfields k hk).1,
    (hfields k hk).2, if_pos hj]
  rfl

/-- Blocks of one descriptor are cells apart from its list and from each other. -/
theorem apartFrom_slot (hsite : Site descs base) (hbooks : Books base arenas live)
    (hk : k < DESC_CNT) (ha : a ∈ arenas) (hb : a.IsBlock base b)
    (hF : ∀ x, F x → FreeBlock base arenas live k x)
    (hnot : ¬ F b) :
    ApartFrom (freeListAt descs k) F b := by
  have hbounds := (hbooks.ok a ha).block_bounds hb
  have hlist : freeListAt descs k + 16 ≤ b := by
    have := hsite.below
    unfold Arena.addr at hbounds
    unfold freeListAt descFreeList descPtr DESC_SIZE DESC_MAX DESC_CNT at *
    omega
  refine ⟨Or.inr (by omega), Or.inr (by unfold listTail; omega), fun x hx => ?_⟩
  obtain ⟨⟨c, hc, -, hblock⟩, -⟩ := hF x hx
  have h₁ := (hbooks.ok a ha).cap_ge
  have h₂ := (hbooks.ok c hc).cap_ge
  have hne : b ≠ x := fun heq => hnot (heq ▸ hx)
  rcases hbooks.block_apart ha hc hb hblock hne with h | h
  · exact Or.inl (by omega)
  · exact Or.inr (by omega)

/-- The loop of `malloc` over the blocks of a new arena. By induction on the blocks that are
left; `F` is what is on the free list so far, and the bytes that are written are those of free
blocks and of the list. -/
theorem pushBlocks_spec (hsite : Site descs base) (hbooks : Books base arenas live)
    (hk : k < DESC_CNT) (ha : a ∈ arenas) (hdesc : a.desc = some k)
    (hhead : HeaderOk m descs base a n) (hfields : FieldsOk m descs)
    (hfree : ∀ j, j < blocksOf k → a.slot base k j ∉ addrs live) {cnt : Nat}
    (hcnt : i + cnt ≤ blocksOf k) (hlist : Holds m (freeListAt descs k) F)
    (hF : ∀ x, F x → FreeBlock base arenas live k x)
    (hnot : ∀ j, i ≤ j → j < i + cnt → ¬ F (a.slot base k j)) :
    ∃ m', pushBlocks (descPtr descs k) (a.addr base) cnt i m = .ok m' ∧
      Holds m' (freeListAt descs k)
        (fun x => F x ∨ ∃ j, i ≤ j ∧ j < i + cnt ∧ x = a.slot base k j) ∧
      m.SameBut m' (FreeBytes descs base arenas live k) := by
  induction cnt generalizing i m F with
  | zero =>
      refine ⟨m, rfl, hlist.congr fun x => ?_, Mem.SameBut.refl _ _⟩
      exact ⟨Or.inl, fun h => h.elim id fun ⟨j, h₁, h₂, _⟩ => by omega⟩
  | succ cnt ih =>
      have hblock : a.IsBlock base (a.slot base k i) :=
        (Arena.isBlock_iff hdesc).mpr ⟨i, by omega, rfl⟩
      have hblocks : ∀ x, F x ∨ x = a.slot base k i → FreeBlock base arenas live k x := by
        rintro x (hx | rfl)
        · exact hF x hx
        · exact ⟨⟨a, ha, hdesc, hblock⟩, hfree i (by omega)⟩
      obtain ⟨m₁, hpush, hholds, hsame⟩ := listPushBack_spec hlist
        (apartFrom_slot hsite hbooks hk ha hblock hF (hnot i (Nat.le_refl _) (by omega)))
        (cell_bounds hbooks ha hblock)
      have hsame : m.SameBut m₁ (FreeBytes descs base arenas live k) :=
        hsame.mono fun x hx => listBytes_freeBytes hbooks hblocks hx
      obtain ⟨m', hloop, hholds', hsame'⟩ := ih
        (hhead.keep hsame fun x hx hfree => hfree.not_header hsite hbooks hk ha hx)
        (hfields.keep hsame fun k' hk' x hlo hhi hfree =>
          hfree.not_field hsite hbooks hk hk' hlo hhi)
        (i := i + 1) (by omega) hholds hblocks
        (fun j h₁ h₂ hF => hF.elim (hnot j (by omega) (by omega)) fun heq => by
          have := Arena.slot_inj heq
          omega)
      refine ⟨m', ?_, hholds'.congr fun x => ?_, hsame.trans hsame'⟩
      · unfold pushBlocks
        rw [arenaToBlock_eq hsite hk hdesc hhead hfields (by omega), ok_bind]
        exact (congrArg (· >>= _) hpush).trans hloop
      · constructor
        · rintro ((hx | rfl) | ⟨j, h₁, h₂, rfl⟩)
          · exact Or.inl hx
          · exact Or.inr ⟨i, Nat.le_refl _, by omega, rfl⟩
          · exact Or.inr ⟨j, by omega, by omega, rfl⟩
        · rintro (hx | ⟨j, h₁, h₂, rfl⟩)
          · exact Or.inl (Or.inl hx)
          · rcases Nat.eq_or_lt_of_le h₁ with rfl | hlt
            · exact Or.inl (Or.inr rfl)
            · exact Or.inr ⟨j, hlt, by omega, rfl⟩

/-- The loop of `free` over the blocks of an unused arena, all of which are on the free list.
By the same induction, with the list getting shorter. -/
theorem removeBlocks_spec (hsite : Site descs base) (hbooks : Books base arenas live)
    (hk : k < DESC_CNT) (ha : a ∈ arenas) (hdesc : a.desc = some k)
    (hhead : HeaderOk m descs base a n) (hfields : FieldsOk m descs) {cnt : Nat}
    (hcnt : i + cnt ≤ blocksOf k) (hlist : Holds m (freeListAt descs k) F)
    (hF : ∀ x, F x → FreeBlock base arenas live k x)
    (hall : ∀ j, i ≤ j → j < i + cnt → F (a.slot base k j)) :
    ∃ m', removeBlocks (a.addr base) cnt i m = .ok m' ∧
      Holds m' (freeListAt descs k)
        (fun x => F x ∧ ∀ j, i ≤ j → j < i + cnt → x ≠ a.slot base k j) ∧
      m.SameBut m' (FreeBytes descs base arenas live k) := by
  induction cnt generalizing i m F with
  | zero =>
      refine ⟨m, rfl, hlist.congr fun x => ?_, Mem.SameBut.refl _ _⟩
      exact ⟨fun h => ⟨h, fun j h₁ h₂ => by omega⟩, fun h => h.1⟩
  | succ cnt ih =>
      obtain ⟨m₁, r, hremove, hholds, hsame⟩ := listRemove_spec hlist
        (hall i (Nat.le_refl _) (by omega))
      have hsame : m.SameBut m₁ (FreeBytes descs base arenas live k) :=
        hsame.mono fun x hx => listBytes_freeBytes hbooks hF hx
      obtain ⟨m', hloop, hholds', hsame'⟩ := ih
        (hhead.keep hsame fun x hx hfree => hfree.not_header hsite hbooks hk ha hx)
        (hfields.keep hsame fun k' hk' x hlo hhi hfree =>
          hfree.not_field hsite hbooks hk hk' hlo hhi)
        (i := i + 1) (by omega) hholds (fun x hx => hF x hx.1)
        (fun j h₁ h₂ => ⟨hall j (by omega) (by omega), fun heq => by
          have := Arena.slot_inj heq
          omega⟩)
      refine ⟨m', ?_, hholds'.congr fun x => ?_, hsame.trans hsame'⟩
      · unfold removeBlocks
        rw [arenaToBlock_eq hsite hk hdesc hhead hfields (by omega), ok_bind, hremove, ok_bind]
        exact hloop
      · constructor
        · rintro ⟨⟨hx, hne⟩, hrest⟩
          refine ⟨hx, fun j h₁ h₂ => ?_⟩
          rcases Nat.eq_or_lt_of_le h₁ with rfl | hlt
          · exact hne
          · exact hrest j hlt (by omega)
        · rintro ⟨hx, hrest⟩
          exact ⟨⟨hx, hrest i (Nat.le_refl _) (by omega)⟩,
            fun j h₁ h₂ => hrest j (by omega) (by omega)⟩

end Ops

end OsTools.Threads

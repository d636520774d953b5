import OsTools.MmAlloc.Malloc
/-!
# OsTools.MmAlloc.Realloc

What `mm_realloc` does to the list of blocks. When the block merged with its
free neighbours would be large enough, the call frees first and then allocates;
otherwise it allocates first and then frees. `Moved` describes both.

## Proof shape

The size of the merged block (`if_we_free`) is computed by tests of the two neighbours,
which `addIfFree_left` and `addIfFree_right` turn into the merged size of the list. What
`mm_realloc` then does is a composition of the relations of `mm_malloc` and `mm_free`. When
it frees first, the merged block fits, and so the search finds a block
(`freeThenMalloc_spec`). When it allocates first, the new block is not a neighbour of the
old one, or it is a block at the break (`Grant.around`); this is needed because `mm_free` is
about to merge with what is beside the old block.

The size for the last copy is read from the header after the block was freed. `reread_size`
says what it is then, and `freed_size_le` that the copy still fits into the new block.
-/

namespace OsTools.MmAlloc

open Heap

variable {h : Heap} {xs ys xs' ys' bs bs' : List Blk} {b c m m' : Blk} {size : Nat}

/-! ### The size of the merged block -/

theorem AbsorbLeft.addr_mem (hl : AbsorbLeft xs b xs' m) :
    (∀ d ∈ xs', d ∈ xs) ∧ (m.addr = b.addr ∨ ∃ p ∈ xs, m.addr = p.addr) := by
  cases hl with
  | stay _ => exact ⟨fun d hd => hd, Or.inl rfl⟩
  | @merge _ p _ _ => exact ⟨fun d hd => by simp [hd], Or.inr ⟨p, by simp, rfl⟩⟩

theorem AbsorbLeft.mem_of_alloc (hl : AbsorbLeft xs b xs' m) {d : Blk} (hd : d ∈ xs)
    (hf : d.free = false) : d ∈ xs' := by
  cases hl with
  | stay _ => exact hd
  | @merge _ p _ hp =>
      rcases List.mem_append.mp hd with hd | hd
      · exact hd
      · rw [List.mem_singleton.mp hd, hp] at hf
        exact absurd hf (by simp)

theorem AbsorbRight.addr_mem (hr : AbsorbRight m ys m' ys') :
    m'.addr = m.addr ∧ m'.free = m.free ∨ m'.addr = m.addr ∧ m'.free = true := by
  cases hr with
  | stay _ => exact Or.inl ⟨rfl, rfl⟩
  | merge _ => exact Or.inr ⟨rfl, rfl⟩

theorem AbsorbRight.mem_of_alloc (hr : AbsorbRight m ys m' ys') {d : Blk} (hd : d ∈ ys)
    (hf : d.free = false) : d ∈ ys' := by
  cases hr with
  | stay _ => exact hd
  | @merge n _ hn =>
      rcases List.mem_cons.mp hd with rfl | hd
      · rw [hn] at hf
        exact absurd hf (by simp)
      · exact hd

/-- The two tests that compute `if_we_free` add up to the merged size. -/
theorem addIfFree_left (hs : Shape h (xs ++ b :: ys)) (hl : AbsorbLeft xs b xs' m) :
    h.addIfFree b.size (lastOr NULL xs) = .ok m.size := by
  unfold addIfFree
  cases hl with
  | stay hp =>
      rcases List.eq_nil_or_concat xs with rfl | ⟨zs, p, rfl⟩
      · rw [lastOr_nil, if_pos rfl]
      · rw [List.concat_eq_append] at hs hp ⊢
        have hs' : Shape h (zs ++ p :: b :: ys) := by simpa using hs
        have hlast : lastOr NULL (zs ++ [p]) = p.addr := by simp
        rw [hlast, if_neg (hs'.addr_ne_null (by simp)), getFree_ok (hs'.valid (by simp)), ok_bind,
          hs'.header, hp p (by simp)]
        exact if_neg (by simp)
  | @merge _ p _ hp =>
      have hs' : Shape h (xs' ++ p :: b :: ys) := by simpa using hs
      have hlast : lastOr NULL (xs' ++ [p]) = p.addr := by simp
      have hvp : h.Valid p.addr := hs'.valid (by simp)
      have hlt := hs'.merge_lt
      rw [hlast, if_neg (hs'.addr_ne_null (by simp)), getFree_ok hvp, ok_bind, hs'.header, hp,
        Bool.toNat_true, if_pos rfl, getSize_ok hvp, ok_bind, hs'.header]
      dsimp only [sizeofBlock, Blk.merge]
      rw [add64_of_lt (a := p.size) (by omega), add64_of_lt (by omega)]
      congr 1
      omega

theorem addIfFree_right (hs : Shape h (xs ++ b :: ys)) (hr : AbsorbRight m ys m' ys')
    (hlt : m'.size < 2 ^ 64) :
    h.addIfFree m.size (headOr NULL ys) = .ok m'.size := by
  unfold addIfFree
  cases hr with
  | stay hn =>
      cases ys with
      | nil => rw [headOr_nil, if_pos rfl]
      | cons n ys =>
          have hs' : Shape h ((xs ++ [b]) ++ n :: ys) := by simpa using hs
          rw [headOr_cons, if_neg (hs.addr_ne_null (by simp)), getFree_ok (hs.valid (by simp)),
            ok_bind, hs'.header, hn n rfl]
          exact if_neg (by simp)
  | @merge n _ hn =>
      have hs' : Shape h ((xs ++ [b]) ++ n :: ys') := by simpa using hs
      have hvn : h.Valid n.addr := hs'.valid (by simp)
      simp only [Blk.merge] at hlt
      rw [headOr_cons, if_neg (hs.addr_ne_null (by simp)), getFree_ok hvn, ok_bind, hs'.header, hn,
        Bool.toNat_true, if_pos rfl, getSize_ok hvn, ok_bind, hs'.header]
      dsimp only [sizeofBlock, Blk.merge]
      rw [add64_of_lt (a := n.size) (by omega), add64_of_lt (by omega)]
      congr 1
      omega

/-! ### What `mm_free` keeps -/

/-- What a call of `mm_free` leaves: every other allocated block as it was. -/
structure Freed (h : Heap) (bs : List Blk) (b : Blk) (h' : Heap) (bs' : List Blk) : Prop where
  shape : Shape h' bs'
  same : SameBounds h h'
  mem : ∀ d ∈ bs, d.free = false → d ≠ b → d ∈ bs'
  keep : ∀ d ∈ bs, d.free = false → d ≠ b → ∀ x, d.Has x → h'.mem x = h.mem x

/-- `mm_free` of the block `b` that is in use: its neighbours are absorbed if they are
free, and the contents of all blocks in use stay. Every header that is left is one that
there was. -/
theorem mmFree_freed (hs : Shape h (xs ++ b :: ys)) (hl : AbsorbLeft xs b xs' m)
    (hr : AbsorbRight m ys m' ys') :
    ∃ h', h.mmFree (b.addr + 32) = .ok h' ∧ Freed h (xs ++ b :: ys) b h' (xs' ++ m' :: ys') ∧
      h'.end_ = (if ys ≠ [] ∧ ys' = [] then m.addr else h.end_) ∧
      (h'.hdr b.addr).size = (if m.addr = b.addr then m'.size else b.size) := by
  obtain ⟨h', hrun, hshape, hsame, hend, hmem⟩ := mmFree_spec hs hl hr
  -- merging makes no new headers: every block left begins where one began
  have haddr : ∀ c ∈ xs' ++ m' :: ys, ∃ d ∈ xs ++ b :: ys, c.addr = d.addr := by
    intro c hc
    rcases List.mem_append.mp hc with hc | hc
    · exact ⟨c, by simp [hl.addr_mem.1 c hc], rfl⟩
    · rcases List.mem_cons.mp hc with rfl | hc
      · have hm : c.addr = m.addr := by
          rcases hr.addr_mem with hm | hm <;> exact hm.1
        rw [hm]
        rcases hl.addr_mem.2 with hb | ⟨p, hp, hpa⟩
        · exact ⟨b, by simp, hb⟩
        · exact ⟨p, by simp [hp], hpa⟩
      · exact ⟨c, by simp [hc], rfl⟩
  refine ⟨h', hrun, ⟨hshape, hsame, fun d hd hf hne => ?_, fun d hd hf hne x hx => ?_⟩, hend, ?_⟩
  · rcases List.mem_append.mp hd with hd | hd
    · simp [hl.mem_of_alloc hd hf]
    · rcases List.mem_cons.mp hd with rfl | hd
      · exact absurd rfl hne
      · simp [hr.mem_of_alloc hd hf]
  · refine hmem x (fun c hc => ?_) ?_
    · obtain ⟨e, he, hce⟩ := haddr c hc
      rw [hce]
      exact hs.header_outside hd he hx
    · have := hs.header_outside hd (c := b) (by simp) hx
      omega
  · split
    · -- `b` still heads its block
      rename_i hmb
      have hm : m'.addr = b.addr := by
        rcases hr.addr_mem with hm | hm <;> exact hm.1.trans hmb
      have := hshape.header
      rw [hm] at this
      rw [this]
    · -- `b` was absorbed, and its old size field lies in the merged payload
      rename_i hmb
      have hb : (h.hdr b.addr).size = b.size := by rw [hs.header]
      rw [← hb]
      refine Mem.load_congr fun i hi => hmem _ (fun c hc => ?_) (by omega)
      obtain ⟨e, he, hce⟩ := haddr c hc
      have hne : e ≠ b := by
        rintro rfl
        cases hl with
        | stay _ => exact hmb rfl
        | @merge _ p _ hp =>
            have hs' : Shape h (xs' ++ p :: e :: ys) := by simpa using hs
            obtain ⟨htx, hpe, hty⟩ := hs'.parts
            rcases List.mem_append.mp hc with hc | hc
            · have := htx.valid hc
              omega
            · rcases List.mem_cons.mp hc with rfl | hc
              · have hm : c.addr = p.addr := by
                  rcases hr.addr_mem with hm | hm <;> exact hm.1
                omega
              · have := Tiled.valid hty hc
                simp only [Blk.len, sizeofBlock] at this
                omega
      have := hs.apart he (c := b) (by simp) hne
      unfold Apart at this
      omega

/-! ### Allocating beside a block -/

/-- Where a list is split in two ways, one split point is inside the other. -/
theorem split_cases {us vs : List Blk} {r : Blk} (h : xs ++ b :: ys = us ++ r :: vs)
    (hne : r ≠ b) :
    (∃ ws, xs = us ++ r :: ws ∧ vs = ws ++ b :: ys) ∨
    (∃ ws, us = xs ++ b :: ws ∧ ys = ws ++ r :: vs) := by
  rcases List.append_eq_append_iff.mp h with ⟨ws, hus, hys⟩ | ⟨ws, hxs, hvs⟩
  · cases ws with
    | nil => exact absurd (List.cons.inj hys).1.symm hne
    | cons w ws =>
        obtain ⟨rfl, rfl⟩ := List.cons.inj hys
        exact Or.inr ⟨ws, hus, rfl⟩
  · cases ws with
    | nil => exact absurd (List.cons.inj hvs).1 hne
    | cons w ws =>
        obtain ⟨rfl, rfl⟩ := List.cons.inj hvs
        exact Or.inl ⟨ws, hxs, rfl⟩

/-- The block after `b` is the one that was there, or `b` was last and now a
new block at the break follows it. -/
def Follows (size : Nat) (bs ys ys₁ : List Blk) (c : Blk) : Prop :=
  (ys₁.head? = ys.head? ∧ (ys = [] → ∃ r ∈ bs, r.fits size = true)) ∨
  (ys = [] ∧ ys₁ = [c] ∧ ∀ r ∈ bs, r.fits size = false)

/-- An allocation that does not take a neighbour of `b` leaves `b` between the
same neighbours; only a new block at the break may come to follow it. -/
theorem Grant.around {brk e e' : Nat} (hg : Grant size brk e (xs ++ b :: ys) bs' c e')
    (hb : b.free = false) (hlast : ∀ p ∈ xs.getLast?, p.fits size = false)
    (hhead : ∀ n ∈ ys.head?, n.fits size = false) :
    ∃ xs₁ ys₁, bs' = xs₁ ++ b :: ys₁ ∧ xs₁.getLast? = xs.getLast? ∧
      Follows size (xs ++ b :: ys) ys ys₁ c := by
  -- the block that was taken is not next to `b`, whose neighbours are too small
  have hxs : ∀ {us ws : List Blk} {r : Blk}, xs = us ++ r :: ws → r.fits size = true →
      ∃ w ws', ws = ws' ++ [w] := by
    rintro us ws r rfl hr
    rcases List.eq_nil_or_concat ws with rfl | ⟨ws', w, hws⟩
    · have := hlast r (by simp)
      rw [hr] at this
      exact absurd this (by simp)
    · exact ⟨w, ws', by rw [hws, List.concat_eq_append]⟩
  have hys : ∀ {ws vs : List Blk} {r : Blk}, ys = ws ++ r :: vs → r.fits size = true → ws ≠ [] := by
    rintro ws vs r rfl hr rfl
    have := hhead r (by simp)
    rw [hr] at this
    exact absurd this (by simp)
  generalize hbs : xs ++ b :: ys = bs at hg ⊢
  cases hg with
  | @whole us vs r _ hr _ =>
      have hfits : ys = [] → ∃ d ∈ us ++ r :: vs, d.fits size = true := fun _ => ⟨r, by simp, hr⟩
      have hne : r ≠ b := by
        rintro rfl
        rw [(Blk.fits_iff.mp hr).1] at hb
        exact absurd hb (by simp)
      rcases split_cases hbs hne with ⟨ws, hx, rfl⟩ | ⟨ws, rfl, hy⟩
      · obtain ⟨w, ws', rfl⟩ := hxs hx hr
        refine ⟨us ++ { r with free := false } :: (ws' ++ [w]), ys, by simp, ?_,
          Or.inl ⟨rfl, hfits⟩⟩
        rw [hx]
        simp [List.getLast?_cons]
      · have hws := hys hy hr
        refine ⟨xs, ws ++ { r with free := false } :: vs, by simp, rfl, Or.inl ⟨?_, hfits⟩⟩
        rw [hy]
        cases ws with
        | nil => exact absurd rfl hws
        | cons w ws => rfl
  | @cut us vs r _ hr _ =>
      have hfits : ys = [] → ∃ d ∈ us ++ r :: vs, d.fits size = true := fun _ => ⟨r, by simp, hr⟩
      have hne : r ≠ b := by
        rintro rfl
        rw [(Blk.fits_iff.mp hr).1] at hb
        exact absurd hb (by simp)
      rcases split_cases hbs hne with ⟨ws, hx, rfl⟩ | ⟨ws, rfl, hy⟩
      · obtain ⟨w, ws', rfl⟩ := hxs hx hr
        refine ⟨us ++ ⟨r.addr, size, false⟩ :: ⟨r.addr + 32 + size, r.size - 32 - size, true⟩ ::
          (ws' ++ [w]), ys, by simp, ?_,
          Or.inl ⟨rfl, hfits⟩⟩
        rw [hx]
        simp [List.getLast?_cons]
      · have hws := hys hy hr
        refine ⟨xs, ws ++ ⟨r.addr, size, false⟩ ::
          ⟨r.addr + 32 + size, r.size - 32 - size, true⟩ :: vs, by simp, rfl, Or.inl ⟨?_, hfits⟩⟩
        rw [hy]
        cases ws with
        | nil => exact absurd rfl hws
        | cons w ws => rfl
  | new hnone =>
      -- nothing fitted: the new block is at the end
      subst hbs
      refine ⟨xs, ys ++ [⟨brk, size, false⟩], by simp, rfl, ?_⟩
      cases ys with
      | nil => exact Or.inr ⟨rfl, rfl, hnone⟩
      | cons y ys => exact Or.inl ⟨rfl, fun h => absurd h (by simp)⟩

/-! ### The call -/

/-- What a call that returns block `c` makes of the list around `b` and of
`end_`: it frees and then allocates within the merged list, or it allocates
elsewhere and then frees. -/
inductive Moved (size brk e : Nat) (xs : List Blk) (b : Blk) (ys : List Blk) :
    List Blk → Blk → Nat → Prop
  | within {xs' ys' bs' : List Blk} {m m' c : Blk} {e' : Nat} (hl : AbsorbLeft xs b xs' m)
      (hr : AbsorbRight m ys m' ys') (hfit : size ≤ m'.size)
      (hg : Grant size brk (if ys ≠ [] ∧ ys' = [] then m.addr else e) (xs' ++ m' :: ys') bs' c e') :
      Moved size brk e xs b ys bs' c e'
  | away {xs' ys' xs₁ ys₁ xs₁' ys₁' : List Blk} {m m' m₁ m₁' c : Blk} {e₁ : Nat}
      (hl : AbsorbLeft xs b xs' m) (hr : AbsorbRight m ys m' ys') (hfit : m'.size < size)
      (hg : Grant size brk e (xs ++ b :: ys) (xs₁ ++ b :: ys₁) c e₁)
      (hlast : xs₁.getLast? = xs.getLast?) (hhead : Follows size (xs ++ b :: ys) ys ys₁ c)
      (hl₁ : AbsorbLeft xs₁ b xs₁' m₁) (hr₁ : AbsorbRight m₁ ys₁ m₁' ys₁') :
      Moved size brk e xs b ys (xs₁' ++ m₁' :: ys₁') c
        (if ys₁ ≠ [] ∧ ys₁' = [] then m₁.addr else e₁)

/-- What a successful call leaves. -/
structure Reallocated (h : Heap) (xs : List Blk) (b : Blk) (ys : List Blk) (size : Nat) (h' : Heap)
    (bs' : List Blk) (c : Blk) : Prop where
  moved : Moved size h.brk h.end_ xs b ys bs' c h'.end_
  shape : Shape h' bs'
  lo : h'.lo = h.lo
  first : h'.first = false
  mem : c ∈ bs' ∧ c.free = false ∧ size ≤ c.size
  others : ∀ d ∈ xs ++ b :: ys, d.free = false → d ≠ b → d ∈ bs' ∧ c.addr ≠ d.addr
  keep : ∀ d ∈ xs ++ b :: ys, d.free = false → d ≠ b → ∀ x, d.Has x → h'.mem x = h.mem x

theorem AbsorbLeft.size_le (hl : AbsorbLeft xs b xs' m) : b.size ≤ m.size := by
  cases hl with
  | stay _ => exact le_refl _
  | merge _ =>
      simp only [Blk.merge]
      omega

theorem AbsorbRight.size_le (hr : AbsorbRight m ys m' ys') : m.size ≤ m'.size := by
  cases hr with
  | stay _ => exact le_refl _
  | merge _ =>
      simp only [Blk.merge]
      omega

/-- A neighbour that fits would make the merged block large enough. -/
theorem AbsorbLeft.neighbour_small (hl : AbsorbLeft xs b xs' m) (hsmall : m'.size < size)
    (hr : AbsorbRight m ys m' ys') : ∀ p ∈ xs.getLast?, p.fits size = false := by
  have hle := hr.size_le
  cases hl with
  | stay hp =>
      intro p hpm
      simp [Blk.fits, hp p hpm]
  | @merge _ q _ hq =>
      intro p hpm
      obtain rfl : q = p := by simpa using hpm
      simp only [Blk.merge] at hle
      simp only [Blk.fits, Bool.and_eq_false_iff, decide_eq_false_iff_not]
      omega

theorem AbsorbRight.neighbour_small (hr : AbsorbRight m ys m' ys') (hsmall : m'.size < size) :
    ∀ n ∈ ys.head?, n.fits size = false := by
  cases hr with
  | stay hn =>
      intro n hnm
      simp [Blk.fits, hn n hnm]
  | @merge q _ hq =>
      intro n hnm
      obtain rfl : q = n := by simpa using hnm
      simp only [Blk.merge] at hsmall
      simp only [Blk.fits, Bool.and_eq_false_iff, decide_eq_false_iff_not]
      omega

/-- Freed after an allocation elsewhere, `b` grows no larger than it would have
grown before it, unless its header was absorbed. -/
theorem freed_size_le {xs₁ ys₁ xs₁' ys₁' : List Blk} {m₁ m₁' : Blk}
    (hl : AbsorbLeft xs b xs' m) (hr : AbsorbRight m ys m' ys') (hc : c.free = false)
    (hhead : Follows size bs ys ys₁ c) (hl₁ : AbsorbLeft xs₁ b xs₁' m₁)
    (hr₁ : AbsorbRight m₁ ys₁ m₁' ys₁') (hstay : ∀ zs p, xs₁ = zs ++ [p] → m₁.addr ≠ p.addr) :
    m₁'.size ≤ m'.size := by
  have hm₁ : m₁.size = b.size := by
    cases hl₁ with
    | stay _ => rfl
    | @merge zs p _ _ => exact absurd rfl (hstay _ p rfl)
  have hle := hl.size_le
  have hle' := hr.size_le
  cases hr₁ with
  | stay _ => omega
  | @merge n zs hn =>
      rcases hhead with ⟨hhead, -⟩ | ⟨-, hys₁, -⟩
      · cases ys with
        | nil => exact absurd hhead (by simp)
        | cons y ys =>
            obtain rfl : n = y := by simpa using hhead
            cases hr with
            | stay hn' =>
                have := hn' n rfl
                rw [hn] at this
                exact absurd this (by simp)
            | merge _ =>
                simp only [Blk.merge]
                omega
      · obtain ⟨rfl, -⟩ := List.cons.inj hys₁
        rw [hn] at hc
        exact absurd hc (by simp)

/-- The effect of `memcpy (a, buffer, n)`. -/
def Heap.copied (h : Heap) (a n : Nat) (buffer : Nat → UInt8) : Heap :=
  { h with mem := h.mem.blit a n buffer }

/-- A copy into the payload of `c`. -/
theorem memcpy_spec (hs : Shape h bs) (hc : c ∈ bs) {n : Nat} (f : Nat → UInt8) (hn : n ≤ c.size) :
    h.memcpy (c.addr + 32) n f = .ok (h.copied (c.addr + 32) n f) ∧
      Shape (h.copied (c.addr + 32) n f) bs ∧
      ∀ x, x < c.addr ∨ c.addr + 32 + c.size ≤ x →
        (h.copied (c.addr + 32) n f).mem x = h.mem x := by
  have hv := hs.tiles.valid hc
  refine ⟨if_pos (Or.inr ⟨by omega, by omega⟩), hs.blit hc (le_refl _) (by omega),
    fun x hx => Mem.blit_of_outside ?_⟩
  omega

/-- A call that ends with a copy of `n` bytes into a new block `c` that is zeroed, whatever the
bytes are. -/
structure Copies (h : Heap) (xs : List Blk) (b : Blk) (ys : List Blk) (size : Nat) (h' : Heap)
    (bs' : List Blk) (c : Blk) (n : Nat) (run : (Nat → UInt8) → Except Stuck (Nat × Heap)) :
    Prop where
  run_eq : ∀ f, run f = .ok (c.addr + 32, h'.copied (c.addr + 32) n f)
  result : ∀ f, Reallocated h xs b ys size (h'.copied (c.addr + 32) n f) bs' c
  zero : ∀ i < size, h'.mem (c.addr + 32 + i) = 0

/-- Up to its test the call has computed the merged size. -/
theorem mmRealloc_unfold (hs : Shape h (xs ++ b :: ys)) (hl : AbsorbLeft xs b xs' m)
    (hr : AbsorbRight m ys m' ys') (hlt : m'.size < 2 ^ 64) (hpos : size ≠ 0) {ok : Bool}
    {stack : Nat → UInt8} :
    h.mmRealloc (b.addr + 32) size ok stack =
      if size ≤ m'.size then
        h.freeThenMalloc (b.addr + 32) size (if size < b.size then size else b.size) ok
          fun i => h.mem (b.addr + 32 + i)
      else
        h.mallocThenFree (b.addr + 32) size ok (pastEnd (if size < b.size then size else b.size)
          (fun i => h.mem (b.addr + 32 + i)) stack) := by
  have hvb : h.Valid b.addr := hs.valid (by simp)
  have hbrk := hs.brk_lt
  have hb := hs.tiles.valid (b := b) (by simp)
  have hcopy : (if size < b.size then size else b.size) ≤ b.size := by split <;> omega
  have hbytes : h.readBytes (b.addr + 32) (if size < b.size then size else b.size) =
      .ok fun i => h.mem (b.addr + 32 + i) := if_pos (Or.inr ⟨by omega, by omega⟩)
  unfold Heap.mmRealloc
  rw [if_neg hpos, if_neg (by unfold NULL; omega)]
  dsimp only [sizeofBlock]
  rw [sub64_of_le (by omega) (by omega), Nat.add_sub_cancel, getSize_ok hvb, ok_bind, hs.header]
  dsimp only
  rw [hbytes, ok_bind, getPrev_ok hvb, ok_bind, hs.header]
  dsimp only
  rw [addIfFree_left hs hl, ok_bind, getNext_ok hvb, ok_bind, hs.header]
  dsimp only
  rw [addIfFree_right hs hr hlt, ok_bind]

/-- The merged block lies in the region. -/
theorem merged_lt (hs : Shape h (xs ++ b :: ys)) (hl : AbsorbLeft xs b xs' m)
    (hr : AbsorbRight m ys m' ys') : m'.size < 2 ^ 64 := by
  obtain ⟨h', -, hfreed, -, -⟩ := mmFree_freed hs hl hr
  have := hfreed.shape.tiles.valid (b := m') (by simp)
  have hbrk := hfreed.shape.brk_lt
  omega

/-- `if_we_free >= size`: the merged block fits, so the call returns a block. -/
theorem freeThenMalloc_spec (hs : Shape h (xs ++ b :: ys)) (hfirst : h.first = false)
    (hl : AbsorbLeft xs b xs' m) (hr : AbsorbRight m ys m' ys') (hpos : size ≠ 0)
    (hfit : size ≤ m'.size) {n : Nat} (hn : n ≤ size) (ok : Bool) :
    ∃ h' bs' c, Copies h xs b ys size h' bs' c n (h.freeThenMalloc (b.addr + 32) size n ok) := by
  have hmfits : m'.fits size = true := by
    refine Blk.fits_iff.mpr ⟨?_, hfit⟩
    have hm : m.free = true := by cases hl <;> rfl
    cases hr with
    | stay _ => exact hm
    | merge _ => rfl
  obtain ⟨h₁, hfree, hfreed, hend₁, -⟩ := mmFree_freed hs hl hr
  obtain ⟨h₂, bs', c, hmalloc, hg⟩ := @mmMalloc_of_fits _ _ _ hfreed.shape
    (hfreed.same.first.trans hfirst) hpos ok m' (by simp) hmfits
  obtain ⟨hcmem, hcf, hcsz⟩ := hg.grant.mem
  refine ⟨h₂, bs', c, fun f => ?_, fun f => ?_, hg.zero⟩
  all_goals obtain ⟨hcopy, hshape, hmem⟩ := memcpy_spec hg.shape hcmem f (hn.trans hcsz)
  · unfold Heap.freeThenMalloc
    rw [hfree, ok_bind, hmalloc, ok_bind]
    dsimp only
    rw [hcopy, ok_bind]
  · refine ⟨?_, hshape, hg.lo.trans hfreed.same.lo, hg.first, ⟨hcmem, hcf, hcsz⟩,
      fun d hd hf hne => ?_, fun d hd hf hne x hx => ?_⟩
    · refine .within hl hr hfit ?_
      rw [← hend₁, ← hfreed.same.brk]
      exact hg.grant
    · have hd₁ := hfreed.mem d hd hf hne
      exact ⟨hg.grant.mem_of_alloc hd₁ hf, Grant.addr_ne hfreed.shape hg.grant hd₁ hf⟩
    · have hd₁ := hfreed.mem d hd hf hne
      have hdc : d ≠ c := by
        rintro rfl
        exact Grant.addr_ne hfreed.shape hg.grant hd₁ hf rfl
      rw [hmem x (hg.shape.payload_outside (hg.grant.mem_of_alloc hd₁ hf) hcmem hdc hx),
        hg.keep d hd₁ hf x hx, hfreed.keep d hd hf hne x hx]

/-- The size that is read again: it has grown where the freed block absorbed its successor and was
not absorbed itself. -/
theorem reread_size {xs₁ ys₁ xs₁' ys₁' : List Blk} {m₁ m₁' : Blk} (hc : c.free = false)
    (hlast : xs₁.getLast? = xs.getLast?) (hhead : Follows size bs ys ys₁ c)
    (hl₁ : AbsorbLeft xs₁ b xs₁' m₁) (hr₁ : AbsorbRight m₁ ys₁ m₁' ys₁')
    (hapart : ∀ p ∈ xs₁.getLast?, p.addr ≠ b.addr) :
    let n := if m₁.addr = b.addr then m₁'.size else b.size
    b.size ≤ n ∧ (b.size < n ↔
      (∀ p ∈ xs.getLast?, p.free = false) ∧ ∃ q ∈ ys.head?, q.free = true) := by
  cases hl₁ with
  | @merge zs p _ hp =>
      have hne : (p.merge b).addr ≠ b.addr := hapart p (by simp)
      dsimp only
      rw [if_neg hne]
      refine ⟨le_refl _, iff_of_false (Nat.lt_irrefl _) ?_⟩
      rintro ⟨hnone, -⟩
      have hpf := hnone p (by rw [← hlast]; simp)
      rw [hp] at hpf
      exact absurd hpf (by simp)
  | stay hp =>
      rw [hlast] at hp
      dsimp only
      rw [if_pos rfl, and_iff_right hp]
      cases hr₁ with
      | stay hn =>
          refine ⟨le_refl _, iff_of_false (Nat.lt_irrefl _) ?_⟩
          rintro ⟨q, hq, hqf⟩
          rcases hhead with ⟨hhead, -⟩ | ⟨rfl, -, -⟩
          · rw [hn q (hhead ▸ hq)] at hqf
            exact absurd hqf (by simp)
          · exact absurd hq (by simp)
      | @merge n zs hn =>
          simp only [Blk.merge]
          refine ⟨by omega, iff_of_true (by omega) ?_⟩
          rcases hhead with ⟨hhead, -⟩ | ⟨-, hys₁, -⟩
          · exact ⟨n, hhead ▸ List.head?_cons, hn⟩
          · obtain ⟨rfl, -⟩ := List.cons.inj hys₁
            rw [hc] at hn
            exact absurd hn (by simp)

/-- The other branch, after `mm_malloc` has returned a block. The block `b` may
have been merged when its size is read again; the copy still fits. -/
theorem mallocThenFree_spec (hs : Shape h (xs ++ b :: ys)) (hb : b.free = false)
    (hl : AbsorbLeft xs b xs' m) (hr : AbsorbRight m ys m' ys') (hfit : m'.size < size)
    {ok : Bool} {h₁ : Heap} {bs₁ : List Blk}
    (hmalloc : h.mmMalloc size ok = .ok (c.addr + 32, h₁))
    (hg : Granted h (xs ++ b :: ys) size h₁ bs₁ c) :
    ∃ h' bs' n, Copies h xs b ys size h' bs' c n (h.mallocThenFree (b.addr + 32) size ok) ∧
      b.size ≤ n ∧ (b.size < n ↔
        (∀ p ∈ xs.getLast?, p.free = false) ∧ ∃ q ∈ ys.head?, q.free = true) := by
  have hle := hl.size_le
  have hle' := hr.size_le
  obtain ⟨xs₁, ys₁, rfl, hxs₁, hys₁⟩ :=
    hg.grant.around hb (hl.neighbour_small hfit hr) (hr.neighbour_small hfit)
  obtain ⟨xs₁', m₁, hl₁⟩ := exists_absorbLeft xs₁ b
  obtain ⟨m₁', ys₁', hr₁⟩ := exists_absorbRight m₁ ys₁
  obtain ⟨h₂, hfree, hfreed, hend₂, hsz₂⟩ := mmFree_freed hg.shape hl₁ hr₁
  -- the new block is in use and another one, so that freeing the old one leaves it
  obtain ⟨hcmem, hcf, hcsz⟩ := hg.grant.mem
  have hcb : c ≠ b := by
    rintro rfl
    exact Grant.addr_ne hs hg.grant (by simp) hb rfl
  have hcmem₂ := hfreed.mem c hcmem hcf hcb
  have hapart : ∀ p ∈ xs₁.getLast?, p.addr ≠ b.addr := by
    intro p hp
    have hv := hg.shape.parts.1.valid (List.mem_of_getLast? hp)
    omega
  have hlen : (h₂.hdr b.addr).size ≤ c.size := by
    rw [hsz₂]
    split
    · rename_i hmb
      have := freed_size_le hl hr hcf hys₁ hl₁ hr₁ fun zs p hzs => by
        subst hzs
        have hs₁ : Shape h₁ (zs ++ p :: b :: ys₁) := by simpa using hg.shape
        obtain ⟨-, hpb, -⟩ := hs₁.parts
        omega
      omega
    · omega
  have hvb : h₂.Valid b.addr := by
    have hv := hg.shape.valid (b := b) (by simp)
    exact ⟨hfreed.same.lo ▸ hv.1, hfreed.same.brk ▸ hv.2⟩
  have hsub : sub64 (b.addr + 32) sizeofBlock = b.addr := by
    have hb₁ := hg.shape.tiles.valid (b := b) (by simp)
    have hbrk := hg.shape.brk_lt
    unfold sizeofBlock
    rw [sub64_of_le (by omega) (by omega), Nat.add_sub_cancel]
  -- the size is read again from the freed block, which may have grown by then
  have hreread := reread_size hcf hxs₁ hys₁ hl₁ hr₁ hapart
  dsimp only at hreread
  rw [← hsz₂] at hreread
  refine ⟨h₂, xs₁' ++ m₁' :: ys₁', (h₂.hdr b.addr).size,
    ⟨fun f => ?_, fun f => ?_, fun i hi => ?_⟩, hreread⟩
  · obtain ⟨hcopy, -⟩ := memcpy_spec hfreed.shape hcmem₂ f hlen
    unfold Heap.mallocThenFree
    rw [hmalloc, ok_bind]
    dsimp only
    rw [if_neg (by unfold NULL; omega), hfree, ok_bind, hsub, getSize_ok hvb, ok_bind, hcopy,
      ok_bind]
  · obtain ⟨-, hshape, hmem⟩ := memcpy_spec hfreed.shape hcmem₂ f hlen
    refine ⟨?_, hshape, hfreed.same.lo.trans hg.lo, hfreed.same.first.trans hg.first,
      ⟨hcmem₂, hcf, hcsz⟩, fun d hd hf hne => ?_, fun d hd hf hne x hx => ?_⟩
    · show Moved size h.brk h.end_ xs b ys _ c h₂.end_
      rw [hend₂]
      exact .away hl hr hfit hg.grant hxs₁ hys₁ hl₁ hr₁
    · have hd₁ := hg.grant.mem_of_alloc hd hf
      exact ⟨hfreed.mem d hd₁ hf hne, Grant.addr_ne hs hg.grant hd hf⟩
    · have hd₁ := hg.grant.mem_of_alloc hd hf
      have hdc : d ≠ c := by
        rintro rfl
        exact Grant.addr_ne hs hg.grant hd hf rfl
      rw [hmem x (hfreed.shape.payload_outside (hfreed.mem d hd₁ hf hne) hcmem₂ hdc hx),
        hfreed.keep d hd₁ hf hne x hx, hg.keep d hd hf x hx]
  · rw [hfreed.keep c hcmem hcf hcb _ ⟨by omega, by omega⟩]
    exact hg.zero i hi

/-- **What `mm_realloc` does** to an allocated block once `mm_malloc` returns,
provided `end` is the last block where it matters: when memory is needed from
`sbrk` and obtained. -/
theorem mmRealloc_of_malloc (hs : Shape h (xs ++ b :: ys)) (hb : b.free = false)
    (hfirst : h.first = false) (hl : AbsorbLeft xs b xs' m) (hr : AbsorbRight m ys m' ys')
    (hsize : size < 2 ^ 64) (hpos : size ≠ 0) {ok : Bool} (stack : Nat → UInt8)
    (hend : m'.size < size → (∀ c ∈ xs ++ b :: ys, c.fits size = false) →
      (h.sbrk (add64 size sizeofBlock) ok).isSome → h.end_ = lastOr NULL (xs ++ b :: ys))
    (hmalloc : m'.size < size → ∃ q h₁, h.mmMalloc size ok = .ok (q, h₁)) :
    (h.mmRealloc (b.addr + 32) size ok stack = .ok (NULL, h) ∧ m'.size < size ∧
      ∀ c ∈ xs ++ b :: ys, c.fits size = false) ∨
    ∃ h' bs' c, h.mmRealloc (b.addr + 32) size ok stack = .ok (c.addr + 32, h') ∧
      Reallocated h xs b ys size h' bs' c := by
  rw [mmRealloc_unfold hs hl hr (merged_lt hs hl hr) hpos]
  split
  · rename_i hfit
    obtain ⟨h', bs', c, hcopies⟩ := freeThenMalloc_spec hs hfirst hl hr hpos hfit
      (n := if size < b.size then size else b.size) (by split <;> omega) ok
    exact Or.inr ⟨_, bs', c, hcopies.run_eq _, hcopies.result _⟩
  · rename_i hfit
    have hfit : m'.size < size := by omega
    obtain ⟨q, h₁, hmalloc⟩ := hmalloc hfit
    rcases mmMalloc_spec hs (by simp) hfirst hsize hpos (hend hfit) hmalloc with
      ⟨rfl, rfl, hnone⟩ | ⟨bs₁, c, rfl, hg⟩
    · refine Or.inl ⟨?_, hfit, hnone⟩
      unfold Heap.mallocThenFree
      rw [hmalloc, ok_bind]
      exact if_pos rfl
    · obtain ⟨h', bs', n, hcopies, -⟩ := mallocThenFree_spec hs hb hl hr hfit hmalloc hg
      exact Or.inr ⟨_, bs', c, hcopies.run_eq _, hcopies.result _⟩

/-- The call returns only if `mm_malloc` does. -/
theorem mmMalloc_of_mmRealloc (hs : Shape h (xs ++ b :: ys)) (hl : AbsorbLeft xs b xs' m)
    (hr : AbsorbRight m ys m' ys') (hpos : size ≠ 0) {ok : Bool} {stack : Nat → UInt8}
    {r : Nat × Heap} (hrun : h.mmRealloc (b.addr + 32) size ok stack = .ok r)
    (hfit : m'.size < size) : ∃ q h₁, h.mmMalloc size ok = .ok (q, h₁) := by
  rw [mmRealloc_unfold hs hl hr (merged_lt hs hl hr) hpos, if_neg (by omega)] at hrun
  obtain ⟨⟨q, h₁⟩, hmalloc, -⟩ := bind_eq_ok hrun
  exact ⟨q, h₁, hmalloc⟩

end OsTools.MmAlloc

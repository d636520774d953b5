import Mathlib.Data.List.Chain
import OsTools.MmAlloc.Shape
/-!
# OsTools.MmAlloc.Free

What `mm_free` does to the list of blocks: the freed block absorbs a free
successor after a free predecessor has absorbed it. `mmFree_spec` gives the new
list, the new `end_` and the bytes that stay.

## Proof shape

`mm_free` merges first with the predecessor and then with the successor, and each of the two
may or may not happen. The first merge decides which block the second one is about, so that
the result is a composition of two relations on lists, `AbsorbLeft` and `AbsorbRight`, with
a lemma for each of the four cases. All writes are to headers; a merge is `Shape.absorb`.
-/

namespace OsTools.MmAlloc

open Heap

variable {h : Heap} {xs ys : List Blk} {p b n : Blk}

/-- Two adjacent blocks as one free block. -/
def Blk.merge (b n : Blk) : Blk := ⟨b.addr, b.size + 32 + n.size, true⟩

theorem add64_of_lt {a b : Nat} (h : a + b < 2 ^ 64) : add64 a b = a + b := Nat.mod_eq_of_lt h

theorem sub64_of_le {a b : Nat} (h : b ≤ a) (ha : a < 2 ^ 64) : sub64 a b = a - b := by
  unfold sub64
  omega

/-- `b->free = 1` or `b->free = 0`. -/
theorem Shape.putFree (hs : Shape h (xs ++ b :: ys)) (f : Bool) :
    Shape (h.put .free b.addr f.toNat) (xs ++ { b with free := f } :: ys) := by
  obtain ⟨htx, hty⟩ := hs.parts
  obtain ⟨hcx, -, hcy⟩ := chain_append.mp hs.chain
  refine hs.rebuild .put rfl hty (hcx.congr fun c hc => ?_) ?_ (hcy.congr fun c hc => ?_)
  · refine hdr_put_of_apart (Or.inl ?_)
    have := htx.valid hc
    omega
  · rw [hdr_put_self (by cases f <;> decide), hs.header]
    rfl
  · refine hdr_put_of_apart (Or.inr ?_)
    have := hty.valid hc
    omega

/-- The writes by which `p` absorbs its successor: `size` becomes `m`, and `q`,
the successor's successor, becomes its own. -/
def Heap.absorb (h : Heap) (p m q : Nat) : Heap := ((h.put .size p m).put .next p q).relink q p

/-- `p` absorbs its successor `b`: the list without `b`, in which `p` is as long as both with
the header between them. The header of the block behind `b` gets a new `prev`, and no other
memory changes. -/
theorem Shape.absorb (hs : Shape h (xs ++ p :: b :: ys)) (hp : p.free = true) :
    let h' := h.absorb p.addr (p.size + 32 + b.size) (headOr NULL ys)
    Shape h' (xs ++ p.merge b :: ys) ∧ SameBounds h h' ∧ h'.end_ = h.end_ ∧
      ∀ x, (∀ c ∈ xs ++ p.merge b :: ys, x < c.addr ∨ c.addr + 32 ≤ x) → h'.mem x = h.mem x := by
  obtain ⟨htx, htp⟩ := hs.parts
  obtain ⟨hba, hty⟩ := htp
  simp only [Blk.len, sizeofBlock] at hba hty
  have hbrk := hs.brk_lt
  have hlty := hty.le
  obtain ⟨hcx, hhp, -, hcy⟩ := chain_append.mp hs.chain
  simp only [hp, Bool.toNat_true, headOr_cons] at hhp
  have hnlt : headOr NULL ys < 2 ^ 64 := by
    cases ys with
    | nil => decide
    | cons y ys =>
        have := Tiled.valid hty List.mem_cons_self
        rw [headOr_cons]
        omega
  have hkeep : ∀ c, Apart c p.addr → ((h.put .size p.addr (p.size + 32 + b.size)).put .next p.addr
      (headOr NULL ys)).hdr c = h.hdr c := fun c hc =>
    (hdr_put_of_apart hc).trans (hdr_put_of_apart hc)
  have hnext : ∀ c, c ≤ p.addr → headOr NULL ys = NULL ∨ Apart c (headOr NULL ys) := by
    intro c hc
    cases ys with
    | nil => exact Or.inl rfl
    | cons y ys =>
        have := (Tiled.valid hty List.mem_cons_self).1
        exact Or.inr (Or.inl (by rw [headOr_cons]; omega))
  have hsame : SameBounds h (h.absorb p.addr (p.size + 32 + b.size) (headOr NULL ys)) :=
    (SameBounds.put.trans SameBounds.put).trans SameBounds.relink
  refine ⟨?_, hsame, by rw [Heap.absorb, relink_end]; rfl, fun x hx => ?_⟩
  · refine hs.rebuild hsame rfl ?_ (hcx.congr fun c hc => ?_) ?_ ?_
    · show Tiled ys (p.addr + 32 + (p.size + 32 + b.size)) h.brk
      rwa [show p.addr + 32 + (p.size + 32 + b.size) = b.addr + (32 + b.size) by omega]
    · have := htx.valid hc
      rw [Heap.absorb, hdr_relink_of_apart (hnext _ (by omega)), hkeep _ (Or.inl (by omega))]
    · rw [Heap.absorb, hdr_relink_of_apart (hnext _ (le_refl _)),
        hdr_put_self (by simpa [Field.width] using hnlt),
        hdr_put_self (by simp only [Field.width]; omega), hhp]
      rfl
    · refine Chain.relink (hcy.congr fun c hc => hkeep _ (Or.inr ?_)) hty (by omega) (by omega)
      have := Tiled.valid hty hc
      omega
  · have hxp : x < p.addr ∨ p.addr + 32 ≤ x := hx (p.merge b) (by simp)
    rw [Heap.absorb, mem_relink, mem_put hxp, mem_put hxp]
    cases ys with
    | nil => exact Or.inl rfl
    | cons y ys => exact Or.inr (hx y (by simp))

/-- The merged size fits a `size_t`. -/
theorem Shape.merge_lt (hs : Shape h (xs ++ p :: b :: ys)) : p.size + 32 + b.size < 2 ^ 64 := by
  obtain ⟨-, htp⟩ := hs.parts
  obtain ⟨hba, hty⟩ := htp
  simp only [Blk.len, sizeofBlock] at hba hty
  have hbrk := hs.brk_lt
  have := hty.le
  omega

/-- The free predecessor `p` absorbs `b`. -/
theorem mergePrev_left (hs : Shape h (xs ++ p :: b :: ys)) (hp : p.free = true) :
    h.mergePrev b.addr = .ok (p.addr, h.absorb p.addr (p.size + 32 + b.size) (headOr NULL ys)) := by
  have hs' : Shape h ((xs ++ [p, b]) ++ ys) := by simpa using hs
  have hlt := hs.merge_lt
  have hhp := hs.header
  have hhb : h.hdr b.addr = ⟨b.size, b.free.toNat, headOr NULL ys, p.addr⟩ :=
    (chain_append.mp hs.chain).2.2.1
  have hvp : h.Valid p.addr := hs.valid (by simp)
  have hvb : h.Valid b.addr := hs.valid (by simp)
  have hapart : Apart b.addr p.addr := by
    obtain ⟨-, hba, -⟩ := hs.parts
    exact Or.inr (by omega)
  set h₁ := h.put .size p.addr (p.size + 32 + b.size) with hh₁
  set h₂ := h₁.put .next p.addr (headOr NULL ys) with hh₂
  have hb₁ : h₁.hdr b.addr = h.hdr b.addr := hdr_put_of_apart hapart
  have hb₂ : h₂.hdr b.addr = h.hdr b.addr := (hdr_put_of_apart hapart).trans hb₁
  have hv₁ : ∀ {c}, h.Valid c → h₁.Valid c := fun hc => hc
  have hv₂ : ∀ {c}, h.Valid c → h₂.Valid c := fun hc => hc
  unfold mergePrev
  rw [getPrev_ok hvb, ok_bind, hhb]
  dsimp only
  rw [if_neg (hs.addr_ne_null (by simp)), getFree_ok hvp, ok_bind, hhp, hp, Bool.toNat_true,
    if_pos rfl, getSize_ok hvp, ok_bind, getSize_ok hvb, ok_bind, hhp, hhb]
  dsimp only [sizeofBlock]
  rw [add64_of_lt (a := p.size) (by omega), add64_of_lt (by omega), setSize_ok hvp, ok_bind,
    ← hh₁, getNext_ok (hv₁ hvb), ok_bind, hb₁, hhb, setNext_ok (hv₁ hvp), ok_bind, ← hh₂,
    getNext_ok (hv₂ hvb), ok_bind, hb₂, hhb, setPrevIf_ok (hs'.valid_next.imp_right hv₂), ok_bind,
    Heap.absorb, hh₂, hh₁]

/-- Without a free predecessor nothing changes. -/
theorem mergePrev_stay (hs : Shape h (xs ++ b :: ys))
    (hp : ∀ p ∈ xs.getLast?, p.free = false) : h.mergePrev b.addr = .ok (b.addr, h) := by
  have hvb : h.Valid b.addr := hs.valid (by simp)
  unfold mergePrev
  rw [getPrev_ok hvb, ok_bind, hs.header]
  dsimp only
  rcases List.eq_nil_or_concat xs with rfl | ⟨xs', p, rfl⟩
  · rw [lastOr_nil, if_pos rfl]
  · rw [List.concat_eq_append] at hs hp ⊢
    have hs' : Shape h (xs' ++ p :: b :: ys) := by simpa using hs
    have hvp : h.Valid p.addr := hs'.valid (by simp)
    have hlast : lastOr NULL (xs' ++ [p]) = p.addr := by simp
    rw [hlast, if_neg (hs'.addr_ne_null (by simp)), getFree_ok hvp, ok_bind, hs'.header,
      hp p (by simp)]
    exact if_neg (by simp)

/-- `b` absorbs its free successor `n`; if that was the last block, `end` moves
to `b`. -/
theorem mergeNext_right (hs : Shape h (xs ++ b :: n :: ys)) (hn : n.free = true) :
    let h' := h.absorb b.addr (b.size + 32 + n.size) (headOr NULL ys)
    h.mergeNext b.addr = .ok { h' with end_ := if ys = [] then b.addr else h.end_ } := by
  have hs' : Shape h ((xs ++ [b, n]) ++ ys) := by simpa using hs
  have hlt := hs.merge_lt
  have hhb := hs.header
  have hhn : h.hdr n.addr = ⟨n.size, n.free.toNat, headOr NULL ys, b.addr⟩ :=
    (chain_append.mp hs.chain).2.2.1
  have hvb : h.Valid b.addr := hs.valid (by simp)
  have hvn : h.Valid n.addr := hs.valid (by simp)
  have hapart : Apart n.addr b.addr := by
    obtain ⟨-, hna, -⟩ := hs.parts
    exact Or.inr (by omega)
  set h₁ := h.put .size b.addr (b.size + 32 + n.size) with hh₁
  set h₂ := h₁.put .next b.addr (headOr NULL ys) with hh₂
  have hn₁ : h₁.hdr n.addr = h.hdr n.addr := hdr_put_of_apart hapart
  have hn₂ : h₂.hdr n.addr = h.hdr n.addr := (hdr_put_of_apart hapart).trans hn₁
  have hv₁ : ∀ {c}, h.Valid c → h₁.Valid c := fun hc => hc
  have hv₂ : ∀ {c}, h.Valid c → h₂.Valid c := fun hc => hc
  have hv₃ : (h₂.relink (headOr NULL ys) b.addr).Valid n.addr := valid_relink.mpr hvn
  have hn₃ : ((h₂.relink (headOr NULL ys) b.addr).hdr n.addr).next = headOr NULL ys := by
    cases ys with
    | nil => rw [headOr_nil, hdr_relink_of_apart (Or.inl rfl), hn₂, hhn, headOr_nil]
    | cons y ys =>
        have hy : n.addr + 32 ≤ y.addr := by
          have hs'' : Shape h ((xs ++ [b]) ++ n :: y :: ys) := by simpa using hs
          obtain ⟨-, hya, -⟩ := hs''.parts
          omega
        rw [headOr_cons, hdr_relink_of_apart (Or.inr (Or.inl hy)), hn₂, hhn, headOr_cons]
  intro h'
  unfold mergeNext
  rw [getNext_ok hvb, ok_bind, hhb]
  dsimp only
  rw [headOr_cons, if_neg (hs.addr_ne_null (by simp)), getFree_ok hvn, ok_bind, hhn, hn,
    Bool.toNat_true,
    if_pos rfl, getSize_ok hvb, ok_bind, getSize_ok hvn, ok_bind, hhb, hhn]
  dsimp only [sizeofBlock]
  rw [add64_of_lt (a := b.size) (by omega), add64_of_lt (by omega), setSize_ok hvb, ok_bind,
    ← hh₁, getNext_ok (hv₁ hvn), ok_bind, hn₁, hhn, setNext_ok (hv₁ hvb), ok_bind, ← hh₂,
    getNext_ok (hv₂ hvn), ok_bind, hn₂, hhn, setPrevIf_ok (hs'.valid_next.imp_right hv₂), ok_bind,
    getNext_ok hv₃, ok_bind, hn₃]
  cases ys with
  | nil => rfl
  | cons y ys =>
      rw [headOr_cons, if_neg (hs.addr_ne_null (by simp)), if_neg (by simp)]
      have hend : h'.end_ = h.end_ := relink_end
      rw [← hend]
      rfl

/-- Without a free successor nothing changes. -/
theorem mergeNext_stay (hs : Shape h (xs ++ b :: ys))
    (hn : ∀ n ∈ ys.head?, n.free = false) : h.mergeNext b.addr = .ok h := by
  have hvb : h.Valid b.addr := hs.valid (by simp)
  unfold mergeNext
  rw [getNext_ok hvb, ok_bind, hs.header]
  dsimp only
  cases ys with
  | nil => rw [headOr_nil, if_pos rfl]
  | cons n ys =>
      have hs' : Shape h ((xs ++ [b]) ++ n :: ys) := by simpa using hs
      have hvn : h.Valid n.addr := hs.valid (by simp)
      rw [headOr_cons, if_neg (hs.addr_ne_null (by simp)), getFree_ok hvn, ok_bind, hs'.header,
        hn n rfl]
      exact if_neg (by simp)

/-! ### The list after `mm_free` -/

/-- `b`, freed, and the blocks before it become `m` and `xs'`. -/
inductive AbsorbLeft : List Blk → Blk → List Blk → Blk → Prop
  | stay {xs : List Blk} {b : Blk} (hp : ∀ p ∈ xs.getLast?, p.free = false) :
      AbsorbLeft xs b xs { b with free := true }
  | merge {xs : List Blk} {p b : Blk} (hp : p.free = true) :
      AbsorbLeft (xs ++ [p]) b xs (p.merge b)

/-- The free block `m` and the blocks after it become `m'` and `ys'`. -/
inductive AbsorbRight : Blk → List Blk → Blk → List Blk → Prop
  | stay {m : Blk} {ys : List Blk} (hn : ∀ n ∈ ys.head?, n.free = false) : AbsorbRight m ys m ys
  | merge {m n : Blk} {ys : List Blk} (hn : n.free = true) : AbsorbRight m (n :: ys) (m.merge n) ys

theorem exists_absorbLeft (xs : List Blk) (b : Blk) : ∃ xs' m, AbsorbLeft xs b xs' m := by
  rcases List.eq_nil_or_concat xs with rfl | ⟨xs', p, rfl⟩
  · exact ⟨[], _, .stay (by simp)⟩
  · rw [List.concat_eq_append]
    cases hp : p.free with
    | true => exact ⟨xs', _, .merge hp⟩
    | false => exact ⟨xs' ++ [p], _, .stay (by simpa using hp)⟩

theorem exists_absorbRight (m : Blk) (ys : List Blk) : ∃ m' ys', AbsorbRight m ys m' ys' := by
  cases ys with
  | nil => exact ⟨m, [], .stay (by simp)⟩
  | cons n ys =>
      cases hn : n.free with
      | true => exact ⟨_, ys, .merge hn⟩
      | false => exact ⟨m, n :: ys, .stay (by simpa using hn)⟩

/-- **What `mm_free` does.** The list becomes the one with `b` free and merged
with its free neighbours; `end` moves only when a free last block is absorbed
from its left; the bytes outside the headers stay. -/
theorem mmFree_spec {xs' ys' : List Blk} {m m' : Blk} (hs : Shape h (xs ++ b :: ys))
    (hleft : AbsorbLeft xs b xs' m) (hright : AbsorbRight m ys m' ys') :
    ∃ h', h.mmFree (b.addr + 32) = .ok h' ∧ Shape h' (xs' ++ m' :: ys') ∧ SameBounds h h' ∧
      h'.end_ = (if ys ≠ [] ∧ ys' = [] then m.addr else h.end_) ∧
      ∀ x, (∀ c ∈ xs' ++ m' :: ys, x < c.addr ∨ c.addr + 32 ≤ x) →
        (x < b.addr + 8 ∨ b.addr + 12 ≤ x) → h'.mem x = h.mem x := by
  have hvb : h.Valid b.addr := hs.valid (by simp)
  have hbrk := hs.brk_lt
  have hb32 := hvb.2
  have hs₁ := hs.putFree true
  set h₁ := h.put .free b.addr 1 with hh₁
  have hmem₁ : ∀ x, (x < b.addr + 8 ∨ b.addr + 12 ≤ x) → h₁.mem x = h.mem x := fun x hx =>
    Mem.blit_of_outside (by simpa [Field.off, Field.width, Nat.add_assoc] using hx)
  -- the left stage
  obtain ⟨h₂, hrun₂, hs₂, hsame₂, hend₂, hmem₂⟩ : ∃ h₂, h₁.mergePrev b.addr = .ok (m.addr, h₂) ∧
      Shape h₂ (xs' ++ m :: ys) ∧ SameBounds h₁ h₂ ∧ h₂.end_ = h₁.end_ ∧
      ∀ x, (∀ c ∈ xs' ++ m :: ys, x < c.addr ∨ c.addr + 32 ≤ x) → h₂.mem x = h₁.mem x := by
    cases hleft with
    | stay hp =>
        have hrun := mergePrev_stay hs₁ hp
        exact ⟨h₁, hrun, hs₁, .refl _, rfl, fun _ _ => rfl⟩
    | @merge _ p _ hp =>
        have hs₁' : Shape h₁ (xs' ++ p :: { b with free := true } :: ys) := by simpa using hs₁
        have hrun := mergePrev_left hs₁' hp
        obtain ⟨hshape, hsame, hend, hmem⟩ := hs₁'.absorb hp
        exact ⟨_, hrun, hshape, hsame, hend, hmem⟩
  have hmfree : m.free = true := by cases hleft <;> rfl
  have hfree : h.mmFree (b.addr + 32) = h₂.mergeNext m.addr := by
    unfold mmFree
    rw [if_neg (by unfold NULL; omega)]
    simp only [sizeofBlock]
    rw [sub64_of_le (by omega) (by omega), Nat.add_sub_cancel, setFree_ok hvb, ok_bind, ← hh₁,
      hrun₂, ok_bind]
  have hmem : ∀ x, (∀ c ∈ xs' ++ m :: ys, x < c.addr ∨ c.addr + 32 ≤ x) →
      (x < b.addr + 8 ∨ b.addr + 12 ≤ x) → h₂.mem x = h.mem x := fun x hx hb =>
    (hmem₂ x hx).trans (hmem₁ x hb)
  -- the right stage
  cases hright with
  | stay hn =>
      refine ⟨h₂, hfree.trans (mergeNext_stay hs₂ hn), hs₂, SameBounds.put.trans hsame₂, ?_, hmem⟩
      rw [if_neg (by simp), hend₂]
      rfl
  | @merge n _ hn =>
      obtain ⟨hs₃, hsame₃, hend₃, hmem₃⟩ := hs₂.absorb hmfree
      refine ⟨_, hfree.trans (mergeNext_right hs₂ hn), ?_, ?_, ?_, fun x hx hb => ?_⟩
      · exact ⟨hs₃.lo_pos, hs₃.brk_lt, hs₃.base, hs₃.tiles, hs₃.chain⟩
      · have := (SameBounds.put.trans hsame₂).trans hsame₃
        exact ⟨this.lo, this.brk, this.first, this.base⟩
      · rw [hend₂]
        simp
        rfl
      · refine (hmem₃ x fun c hc => ?_).trans (hmem x (fun c hc => ?_) hb)
        · refine hx c ?_
          rcases List.mem_append.mp hc with hc | hc
          · exact List.mem_append_left _ hc
          · rcases List.mem_cons.mp hc with rfl | hc <;> simp [*]
        · rcases List.mem_append.mp hc with hc | hc
          · exact hx c (List.mem_append_left _ hc)
          · rcases List.mem_cons.mp hc with rfl | hc
            · exact hx (c.merge n) (by simp)
            · exact hx c (by simp [hc])

/-! ### No two adjacent free blocks -/

/-- No two consecutive blocks are both free. -/
def Coalesced (bs : List Blk) : Prop := bs.IsChain fun b c => ¬ (b.free = true ∧ c.free = true)

theorem coalesced_middle : Coalesced (xs ++ b :: ys) ↔ Coalesced xs ∧ Coalesced ys ∧
    (b.free = true → (∀ p ∈ xs.getLast?, p.free = false) ∧ ∀ n ∈ ys.head?, n.free = false) := by
  unfold Coalesced
  rw [List.isChain_append, List.isChain_cons]
  simp only [List.head?_cons, Option.mem_def, Option.some.injEq, forall_eq']
  constructor
  · rintro ⟨hxs, ⟨hhead, hys⟩, hlast⟩
    refine ⟨hxs, hys, fun hb => ⟨fun p hp => ?_, fun n hn => ?_⟩⟩
    · have := hlast p hp
      simpa [hb] using this
    · have := hhead n hn
      simpa [hb] using this
  · rintro ⟨hxs, hys, hb⟩
    refine ⟨hxs, ⟨fun n hn hfree => ?_, hys⟩, fun p hp hfree => ?_⟩
    · have := (hb hfree.1).2 n hn
      simp [hfree.2] at this
    · have := (hb hfree.2).1 p hp
      simp [hfree.1] at this

/-- Freeing keeps the list coalesced. -/
theorem Coalesced.release {xs' ys' : List Blk} {m m' : Blk} (hc : Coalesced (xs ++ b :: ys))
    (hleft : AbsorbLeft xs b xs' m) (hright : AbsorbRight m ys m' ys') :
    Coalesced (xs' ++ m' :: ys') := by
  obtain ⟨hxs, hys, -⟩ := coalesced_middle.mp hc
  have hleft' : Coalesced xs' ∧ ∀ p ∈ xs'.getLast?, p.free = false := by
    cases hleft with
    | stay hp => exact ⟨hxs, hp⟩
    | merge hp =>
        obtain ⟨hxs', -, hfree⟩ := coalesced_middle.mp hxs
        exact ⟨hxs', (hfree hp).1⟩
  have hright' : Coalesced ys' ∧ ∀ n ∈ ys'.head?, n.free = false := by
    cases hright with
    | stay hn => exact ⟨hys, hn⟩
    | merge hn =>
        obtain ⟨-, hys', hfree⟩ := (@coalesced_middle [] _ _).mp hys
        exact ⟨hys', (hfree hn).2⟩
  exact coalesced_middle.mpr ⟨hleft'.1, hright'.1, fun _ => ⟨hleft'.2, hright'.2⟩⟩

end OsTools.MmAlloc

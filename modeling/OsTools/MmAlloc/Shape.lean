import OsTools.Lib.Except
import OsTools.Lib.Tiling
import OsTools.MmAlloc.Heap
/-!
# OsTools.MmAlloc.Shape

When the bytes of a heap represent a list of blocks.

`Heap.hdr` reads a whole header and `Heap.put` writes one of its fields, so
that the proofs about the allocator compare headers and never bytes: a write to
a field changes that field of its own header (`hdr_put_self`) and no header
apart from it (`hdr_put_of_apart`).

`Chain` says that the headers of a list of blocks link it in both directions,
`Shape` that the heap's list of blocks is chained from `base` and tiles the
region. `end_` is left out: the source does not keep it in step with the list,
so the results below hold for any `end_`.

## Proof shape

A list of blocks is taken apart around the block that a call is about, `xs ++ b :: ys`, and
`Shape.parts` gives what is known of the three pieces. `Chain.relink` and `Chain.congr` then
say what a write to a header does to each piece, and `rebuild` puts a new list together when
the blocks from `b` on have been replaced. The calls in the next modules change at most the
block, its successor and the `prev` of the one behind, so that this is all they need.
-/

namespace OsTools.MmAlloc

/-- A block: its header's address, its payload's size and its `free` flag. -/
structure Blk where
  addr : Nat
  size : Nat
  free : Bool
  deriving DecidableEq

/-- Header and payload. -/
def Blk.len (b : Blk) : Nat := sizeofBlock + b.size

/-- The four fields of a header. -/
structure Hdr where
  size : Nat
  free : Nat
  next : Nat
  prev : Nat
  deriving DecidableEq

inductive Field
  | size
  | free
  | next
  | prev

namespace Field

def off : Field → Nat
  | size => 0
  | free => 8
  | next => 16
  | prev => 24

def width : Field → Nat
  | free => 4
  | _ => 8

def set (d : Hdr) (v : Nat) : Field → Hdr
  | size => { d with size := v }
  | free => { d with free := v }
  | next => { d with next := v }
  | prev => { d with prev := v }

theorem off_width (F : Field) : F.off + F.width ≤ 32 := by cases F <;> decide

end Field

/-- Two headers that do not overlap. -/
def Apart (a b : Nat) : Prop := a + 32 ≤ b ∨ b + 32 ≤ a

theorem Apart.symm {a b : Nat} (h : Apart a b) : Apart b a := Or.symm h

namespace Heap

/-- The header at `b`. -/
def hdr (h : Heap) (b : Nat) : Hdr :=
  ⟨h.mem.load b 8, h.mem.load (b + 8) 4, h.mem.load (b + 16) 8, h.mem.load (b + 24) 8⟩

/-- Write one field of the header at `b`. -/
def put (h : Heap) (F : Field) (b v : Nat) : Heap :=
  { h with mem := h.mem.store (b + F.off) F.width v }

/-- The effect of `setPrevIf`. -/
def relink (h : Heap) (q v : Nat) : Heap := if q = NULL then h else h.put .prev q v

/-- The effect of `memset (a, 0, n)`. -/
def clear (h : Heap) (a n : Nat) : Heap := { h with mem := h.mem.fill a n 0 }

/-- A header that lies in the region. -/
def Valid (h : Heap) (b : Nat) : Prop := h.lo ≤ b ∧ b + 32 ≤ h.brk

variable {h : Heap} {F : Field} {a b c q v n x : Nat}

@[simp] theorem put_lo : (h.put F b v).lo = h.lo := rfl
@[simp] theorem put_brk : (h.put F b v).brk = h.brk := rfl
@[simp] theorem put_first : (h.put F b v).first = h.first := rfl
@[simp] theorem put_base : (h.put F b v).base = h.base := rfl
@[simp] theorem put_end : (h.put F b v).end_ = h.end_ := rfl
@[simp] theorem valid_put : (h.put F b v).Valid c ↔ h.Valid c := Iff.rfl

@[simp] theorem relink_lo : (h.relink q v).lo = h.lo := by unfold relink; split <;> rfl
@[simp] theorem relink_brk : (h.relink q v).brk = h.brk := by unfold relink; split <;> rfl
@[simp] theorem relink_first : (h.relink q v).first = h.first := by unfold relink; split <;> rfl
@[simp] theorem relink_base : (h.relink q v).base = h.base := by unfold relink; split <;> rfl
@[simp] theorem relink_end : (h.relink q v).end_ = h.end_ := by unfold relink; split <;> rfl
@[simp] theorem valid_relink : (h.relink q v).Valid c ↔ h.Valid c := by
  simp [Valid]

/-! ### Headers under writes -/

theorem hdr_put_self (hv : v < 256 ^ F.width) : (h.put F b v).hdr b = F.set (h.hdr b) v := by
  cases F <;> simp only [hdr, put, Field.off, Field.width, Field.set, Nat.add_zero] at hv ⊢ <;>
    rw [Mem.load_store hv] <;>
    simp only [Mem.store, Hdr.mk.injEq, true_and, and_true] <;>
    refine ⟨?_, ?_, ?_⟩ <;> exact Mem.load_blit_of_disjoint (by omega)

theorem hdr_put_of_apart (hc : Apart c b) : (h.put F b v).hdr c = h.hdr c := by
  have hF := F.off_width
  unfold Apart at hc
  simp only [hdr, put, Mem.store, Hdr.mk.injEq]
  refine ⟨?_, ?_, ?_, ?_⟩ <;> exact Mem.load_blit_of_disjoint (by omega)

theorem mem_put (hx : x < b ∨ b + 32 ≤ x) : (h.put F b v).mem x = h.mem x := by
  have hF := F.off_width
  exact Mem.blit_of_outside (by omega)

theorem hdr_relink_self (hq : q ≠ NULL) (hv : v < 2 ^ 64) :
    (h.relink q v).hdr q = { h.hdr q with prev := v } := by
  rw [relink, if_neg hq, hdr_put_self (by simpa [Field.width] using hv)]
  rfl

theorem hdr_relink_of_apart (hc : q = NULL ∨ Apart c q) : (h.relink q v).hdr c = h.hdr c := by
  unfold relink
  split
  · rfl
  · rename_i hq
    exact hdr_put_of_apart (hc.resolve_left hq)

theorem mem_relink (hx : q = NULL ∨ x < q ∨ q + 32 ≤ x) : (h.relink q v).mem x = h.mem x := by
  unfold relink
  split
  · rfl
  · rename_i hq
    exact mem_put (hx.resolve_left hq)

/-- The header depends on its 32 bytes only. -/
theorem hdr_congr {h' : Heap} (hm : ∀ x, b ≤ x → x < b + 32 → h'.mem x = h.mem x) :
    h'.hdr b = h.hdr b := by
  simp only [hdr, Hdr.mk.injEq]
  refine ⟨?_, ?_, ?_, ?_⟩ <;> exact Mem.load_congr fun i hi => hm _ (by omega) (by omega)

theorem hdr_lt (h : Heap) (b : Nat) : (h.hdr b).size < 2 ^ 64 ∧ (h.hdr b).next < 2 ^ 64 ∧
    (h.hdr b).prev < 2 ^ 64 :=
  ⟨Mem.load_lt _ _ 8, Mem.load_lt _ _ 8, Mem.load_lt _ _ 8⟩

/-! ### The accessors on valid headers -/

theorem getSize_ok (hb : h.Valid b) : h.getSize b = .ok (h.hdr b).size :=
  if_pos (Or.inr ⟨hb.1, by have := hb.2; omega⟩)

theorem getFree_ok (hb : h.Valid b) : h.getFree b = .ok (h.hdr b).free :=
  if_pos (Or.inr ⟨by have := hb.1; omega, by have := hb.2; omega⟩)

theorem getNext_ok (hb : h.Valid b) : h.getNext b = .ok (h.hdr b).next :=
  if_pos (Or.inr ⟨by have := hb.1; omega, by have := hb.2; omega⟩)

theorem getPrev_ok (hb : h.Valid b) : h.getPrev b = .ok (h.hdr b).prev :=
  if_pos (Or.inr ⟨by have := hb.1; omega, by have := hb.2; omega⟩)

theorem setSize_ok (hb : h.Valid b) : h.setSize b v = .ok (h.put .size b v) :=
  if_pos (Or.inr ⟨hb.1, by have := hb.2; omega⟩)

theorem setFree_ok (hb : h.Valid b) : h.setFree b v = .ok (h.put .free b v) :=
  if_pos (Or.inr ⟨by have := hb.1; omega, by have := hb.2; omega⟩)

theorem setNext_ok (hb : h.Valid b) : h.setNext b v = .ok (h.put .next b v) :=
  if_pos (Or.inr ⟨by have := hb.1; omega, by have := hb.2; omega⟩)

theorem setPrev_ok (hb : h.Valid b) : h.setPrev b v = .ok (h.put .prev b v) :=
  if_pos (Or.inr ⟨by have := hb.1; omega, by have := hb.2; omega⟩)

theorem setPrevIf_ok (hq : q = NULL ∨ h.Valid q) : h.setPrevIf q v = .ok (h.relink q v) := by
  unfold setPrevIf relink
  split
  · rfl
  · rename_i hne
    exact setPrev_ok (hq.resolve_left hne)

theorem memset_ok (hr : n = 0 ∨ h.lo ≤ a ∧ a + n ≤ h.brk) :
    h.memset a n = .ok (h.clear a n) := if_pos hr

end Heap

/-! ### Chains of headers -/

/-- The address of the first block, or `n`. -/
def headOr (n : Nat) : List Blk → Nat
  | [] => n
  | b :: _ => b.addr

/-- The address of the last block, or `p`. -/
def lastOr (p : Nat) : List Blk → Nat
  | [] => p
  | b :: bs => lastOr b.addr bs

@[simp] theorem headOr_nil {n : Nat} : headOr n [] = n := rfl
@[simp] theorem headOr_cons {n : Nat} {b : Blk} {bs : List Blk} : headOr n (b :: bs) = b.addr := rfl
@[simp] theorem lastOr_nil {p : Nat} : lastOr p [] = p := rfl
@[simp] theorem lastOr_cons {p : Nat} {b : Blk} {bs : List Blk} :
    lastOr p (b :: bs) = lastOr b.addr bs := rfl

@[simp] theorem headOr_append {n : Nat} {xs ys : List Blk} :
    headOr n (xs ++ ys) = headOr (headOr n ys) xs := by
  cases xs <;> rfl

@[simp] theorem lastOr_append {p : Nat} {xs ys : List Blk} :
    lastOr p (xs ++ ys) = lastOr (lastOr p xs) ys := by
  induction xs generalizing p with
  | nil => rfl
  | cons x xs ih => exact ih

/-- The headers `H` link `bs` in both directions, between `p` and `n`. -/
def Chain (H : Nat → Hdr) : Nat → List Blk → Nat → Prop
  | _, [], _ => True
  | p, b :: bs, n =>
      H b.addr = ⟨b.size, b.free.toNat, headOr n bs, p⟩ ∧ Chain H b.addr bs n

theorem chain_append {H : Nat → Hdr} {p n : Nat} {xs ys : List Blk} :
    Chain H p (xs ++ ys) n ↔ Chain H p xs (headOr n ys) ∧ Chain H (lastOr p xs) ys n := by
  induction xs generalizing p with
  | nil => simp [Chain, lastOr]
  | cons x xs ih => simp only [List.cons_append, Chain, headOr_append, lastOr, ih, and_assoc]

theorem Chain.congr {H H' : Nat → Hdr} {p n : Nat} {bs : List Blk} (h : Chain H p bs n)
    (hH : ∀ b ∈ bs, H' b.addr = H b.addr) : Chain H' p bs n := by
  induction bs generalizing p with
  | nil => trivial
  | cons b bs ih =>
      obtain ⟨hb, hbs⟩ := h
      exact ⟨(hH b List.mem_cons_self).trans hb,
        ih hbs fun c hc => hH c (List.mem_cons_of_mem _ hc)⟩

/-- All blocks of `bs` lie at or after `a`. -/
abbrev Tiled (bs : List Blk) (a e : Nat) : Prop := Tiles Blk.addr Blk.len bs a e

theorem Tiled.valid {bs : List Blk} {a e : Nat} (h : Tiled bs a e) {b : Blk} (hb : b ∈ bs) :
    a ≤ b.addr ∧ b.addr + 32 + b.size ≤ e := by
  have := h.bounds hb
  simp only [Blk.len, sizeofBlock] at this
  omega

/-- `relink` gives the chain a new predecessor. -/
theorem Chain.relink {h : Heap} {p n v : Nat} {bs : List Blk} {a e : Nat}
    (hc : Chain h.hdr p bs n) (ht : Tiled bs a e) (ha : 0 < a) (hv : v < 2 ^ 64) :
    Chain (h.relink (headOr NULL bs) v).hdr v bs n := by
  cases bs with
  | nil => trivial
  | cons b bs =>
      obtain ⟨hb, hbs⟩ := hc
      obtain ⟨hba, htail⟩ := ht
      have hne : b.addr ≠ NULL := by
        unfold NULL
        omega
      refine ⟨?_, hbs.congr fun c hcm => Heap.hdr_relink_of_apart (Or.inr (Or.inr ?_))⟩
      · show (h.relink b.addr v).hdr b.addr = _
        rw [Heap.hdr_relink_self hne hv, hb]
      · have := (Tiled.valid htail hcm).1
        simp only [Blk.len, sizeofBlock] at this
        show b.addr + 32 ≤ c.addr
        omega

/-- The heap's blocks are `bs`: chained from `base`, and tiling the region. -/
structure Shape (h : Heap) (bs : List Blk) : Prop where
  lo_pos : 0 < h.lo
  brk_lt : h.brk < 2 ^ 64
  base : h.base = headOr NULL bs
  tiles : Tiled bs h.lo h.brk
  chain : Chain h.hdr NULL bs NULL

/-- Everything but memory and `end_`. -/
structure SameBounds (h h' : Heap) : Prop where
  lo : h'.lo = h.lo
  brk : h'.brk = h.brk
  first : h'.first = h.first
  base : h'.base = h.base

theorem SameBounds.refl (h : Heap) : SameBounds h h := ⟨rfl, rfl, rfl, rfl⟩

theorem SameBounds.trans {h h' h'' : Heap} (h₁ : SameBounds h h') (h₂ : SameBounds h' h'') :
    SameBounds h h'' :=
  ⟨h₂.lo.trans h₁.lo, h₂.brk.trans h₁.brk, h₂.first.trans h₁.first, h₂.base.trans h₁.base⟩

theorem SameBounds.put {h : Heap} {F : Field} {b v : Nat} : SameBounds h (h.put F b v) :=
  ⟨rfl, rfl, rfl, rfl⟩

theorem SameBounds.relink {h : Heap} {q v : Nat} : SameBounds h (h.relink q v) := by
  constructor <;> simp

namespace Shape

variable {h : Heap} {bs xs ys : List Blk} {b c : Blk}

theorem valid (hs : Shape h bs) (hb : b ∈ bs) : h.Valid b.addr := by
  have := hs.tiles.valid hb
  exact ⟨this.1, by omega⟩

/-- A block's own header. -/
theorem header (hs : Shape h (xs ++ b :: ys)) :
    h.hdr b.addr = ⟨b.size, b.free.toNat, headOr NULL ys, lastOr NULL xs⟩ :=
  (chain_append.mp hs.chain).2.1

/-- Where the parts of a heap around the block `b` lie. -/
theorem parts (hs : Shape h (xs ++ b :: ys)) :
    Tiled xs h.lo b.addr ∧ Tiled ys (b.addr + 32 + b.size) h.brk := by
  have := tiles_middle.mp hs.tiles
  rwa [show b.addr + b.len = b.addr + 32 + b.size by simp only [Blk.len, sizeofBlock]; omega] at this

/-- Distinct blocks have disjoint headers. -/
theorem apart (hs : Shape h bs) (hb : b ∈ bs) (hc : c ∈ bs) (hne : b ≠ c) :
    Apart b.addr c.addr := by
  have hlen : ∀ d : Blk, d.addr + d.len = d.addr + 32 + d.size := fun d => by
    simp only [Blk.len, sizeofBlock]; omega
  have := (hs.tiles.trichotomy hb hc).resolve_left hne
  rw [hlen, hlen] at this
  unfold Apart
  omega

/-- The successor in a header is `NULL` or a block. -/
theorem valid_next (hs : Shape h (xs ++ ys)) : headOr NULL ys = NULL ∨ h.Valid (headOr NULL ys) := by
  cases ys with
  | nil => exact Or.inl rfl
  | cons y ys => exact Or.inr (hs.valid (by simp))

theorem addr_ne_null (hs : Shape h bs) (hb : b ∈ bs) : b.addr ≠ NULL := by
  have hlo := hs.lo_pos
  have := (hs.valid hb).1
  unfold NULL
  omega

/-- The blocks from `b` on are replaced, `b` staying where it is. -/
theorem rebuild {h' : Heap} {zs : List Blk} (hs : Shape h (xs ++ b :: ys)) (hsb : SameBounds h h')
    (haddr : c.addr = b.addr) (htiles : Tiled zs (b.addr + 32 + c.size) h.brk)
    (hxs : Chain h'.hdr NULL xs b.addr)
    (hc : h'.hdr b.addr = ⟨c.size, c.free.toNat, headOr NULL zs, lastOr NULL xs⟩)
    (hzs : Chain h'.hdr b.addr zs NULL) : Shape h' (xs ++ c :: zs) := by
  refine ⟨?_, ?_, ?_, ?_, ?_⟩
  · rw [hsb.lo]
    exact hs.lo_pos
  · rw [hsb.brk]
    exact hs.brk_lt
  · rw [hsb.base, hs.base]
    simp [haddr]
  · refine tiles_middle.mpr ⟨?_, ?_⟩
    · rw [hsb.lo, haddr]
      exact hs.parts.1
    · rw [hsb.brk, haddr, show b.addr + c.len = b.addr + 32 + c.size by
        simp only [Blk.len, sizeofBlock]; omega]
      exact htiles
  · refine chain_append.mpr ⟨?_, ?_, ?_⟩
    · rw [headOr_cons, haddr]
      exact hxs
    · rw [haddr]
      exact hc
    · rw [haddr]
      exact hzs

end Shape

end OsTools.MmAlloc

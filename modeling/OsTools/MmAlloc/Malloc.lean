import OsTools.MmAlloc.Free
/-!
# OsTools.MmAlloc.Malloc

What `mm_malloc` does to the list of blocks: it takes the first free block that
is large enough, whole or cut in two, or appends a block at the break.

## Proof shape

The search is an induction over the blocks that are left (`firstFit_from`). A block that is
found is taken whole (`takeWhole_spec`), or cut (`split_spec`), of which the longest part is
that the rest gets a header inside of the payload and is linked in on both sides
(`cutRest_spec`). When none is found, the new block is written at the old break; the code
writes its header before it looks whether that memory is accessible, so that `extend_spec`
first shows that the increment has not wrapped around.

`Grant` has the three outcomes on the level of lists, with the `end` that they leave. Later
modules use the call only through `Grant` and `Granted`, not through the functions.
-/

namespace OsTools.MmAlloc

open Heap

variable {h : Heap} {xs ys bs : List Blk} {b : Blk} {size : Nat}

/-- A free block of at least `size` bytes. -/
def Blk.fits (size : Nat) (b : Blk) : Bool := b.free && decide (size ≤ b.size)

theorem Tiled.length_le {a e : Nat} (ht : Tiled bs a e) : 32 * bs.length + a ≤ e := by
  induction bs generalizing a with
  | nil => simpa using ht.le
  | cons b bs ih =>
      obtain ⟨hb, hbs⟩ := ht
      have := ih hbs
      simp only [Blk.len, sizeofBlock, List.length_cons] at this ⊢
      omega

/-! ### The search -/

/-- The loop finds the first block that fits. -/
theorem firstFit_from (hs : Shape h (xs ++ ys)) {fuel : Nat} (hfuel : ys.length < fuel) :
    h.firstFit size fuel (headOr NULL ys) = .ok ((ys.find? (Blk.fits size)).map Blk.addr) := by
  induction ys generalizing xs fuel with
  | nil =>
      cases fuel with
      | zero => exact absurd hfuel (by simp)
      | succ fuel => rfl
  | cons b ys ih =>
      cases fuel with
      | zero => exact absurd hfuel (by simp)
      | succ fuel =>
          have hvb : h.Valid b.addr := hs.valid (by simp)
          have hb : b.addr ≠ NULL := hs.addr_ne_null (by simp)
          have hs' : Shape h ((xs ++ [b]) ++ ys) := by simpa using hs
          have hrest := @ih _ hs' fuel (by simpa using hfuel)
          rw [headOr_cons, firstFit, if_neg hb, getFree_ok hvb, ok_bind, hs.header, getSize_ok hvb,
            ok_bind, hs.header, getNext_ok hvb, ok_bind, hs.header]
          dsimp only
          rw [hrest, List.find?_cons]
          cases hf : b.free with
          | false => simp [Blk.fits, hf]
          | true =>
              by_cases hsz : size ≤ b.size
              · simp [Blk.fits, hf, hsz]
              · simp [Blk.fits, hf, hsz]

theorem firstFit_spec (hs : Shape h bs) :
    h.firstFit size (h.brk - h.lo + 1) h.base = .ok ((bs.find? (Blk.fits size)).map Blk.addr) := by
  have hlen := hs.tiles.length_le
  rw [hs.base]
  exact @firstFit_from _ [] _ _ hs _ (by omega)

/-! ### Writes to a payload -/

theorem mem_clear_inside {a n i : Nat} (hi : i < n) : (h.clear a n).mem (a + i) = 0 := by
  show h.mem.blit a n (fun _ => 0) (a + i) = 0
  rw [Mem.blit_of_inside hi]

theorem mem_clear_outside {a n x : Nat} (hx : x < a ∨ a + n ≤ x) :
    (h.clear a n).mem x = h.mem x := by
  show h.mem.blit a n (fun _ => 0) x = h.mem x
  exact Mem.blit_of_outside hx

theorem hdr_blit {a n c : Nat} {f : Nat → UInt8} (hc : c + 32 ≤ a ∨ a + n ≤ c) :
    ({ h with mem := h.mem.blit a n f } : Heap).hdr c = h.hdr c :=
  hdr_congr fun _ h₁ h₂ => Mem.blit_of_outside (by omega)

/-- Bytes written within a block's payload leave the list alone. -/
theorem Shape.blit (hs : Shape h bs) (hb : b ∈ bs) {a n : Nat} {f : Nat → UInt8}
    (h₁ : b.addr + 32 ≤ a) (h₂ : a + n ≤ b.addr + 32 + b.size) :
    Shape { h with mem := h.mem.blit a n f } bs := by
  refine ⟨hs.lo_pos, hs.brk_lt, hs.base, hs.tiles, hs.chain.congr fun c hc => hdr_blit ?_⟩
  have hlen : ∀ d : Blk, d.addr + d.len = d.addr + 32 + d.size := fun d => by
    simp only [Blk.len, sizeofBlock]; omega
  have := hs.tiles.trichotomy hb hc
  rw [hlen, hlen] at this
  rcases this with rfl | this | this <;> omega

/-! ### Taking a block -/

/-- A block taken whole. -/
theorem takeWhole_spec (hs : Shape h (xs ++ b :: ys)) :
    ∃ h', h.takeWhole b.addr = .ok (b.addr + 32, h') ∧
      Shape h' (xs ++ { b with free := false } :: ys) ∧ SameBounds h h' ∧ h'.end_ = h.end_ ∧
      (∀ i < b.size, h'.mem (b.addr + 32 + i) = 0) ∧
      ∀ x, x < b.addr ∨ b.addr + 32 + b.size ≤ x → h'.mem x = h.mem x := by
  have hvb : h.Valid b.addr := hs.valid (by simp)
  have hbrk := hs.brk_lt
  have hb := hs.tiles.valid (b := b) (by simp)
  have hs₁ := hs.putFree false
  set h₁ := h.put .free b.addr 0 with hh₁
  have hsize : (h₁.hdr b.addr).size = b.size := by
    have := hs₁.header
    exact congrArg Hdr.size this
  have hpay : payload b.addr = b.addr + 32 := add64_of_lt (by simp only [sizeofBlock]; omega)
  have hrun : h.takeWhole b.addr = .ok (b.addr + 32, h₁.clear (b.addr + 32) b.size) := by
    unfold takeWhole
    have hv₁ : h₁.Valid b.addr := hvb
    rw [setFree_ok hvb, ok_bind, ← hh₁, getSize_ok hv₁, ok_bind, hsize, hpay,
      memset_ok (Or.inr ⟨by simp only [hh₁, put_lo]; omega, by simp only [hh₁, put_brk]; omega⟩),
      ok_bind]
  refine ⟨_, hrun, ?_, ⟨rfl, rfl, rfl, rfl⟩, rfl, fun i hi => ?_, fun x hx => ?_⟩
  · exact hs₁.blit (b := { b with free := false }) (by simp) (le_refl _) (le_refl _)
  · exact mem_clear_inside hi
  · exact (mem_clear_outside (by omega)).trans (mem_put (by omega))

/-! ### Cutting a block -/

/-- A place for the header of the rest within the payload of `b`. -/
structure Room (h : Heap) (b : Blk) (size new : Nat) : Prop where
  valid : h.Valid b.addr
  eq : new = b.addr + 32 + size
  fit : size + 32 ≤ b.size
  stop : b.addr + 32 + b.size ≤ h.brk

/-- The list when the rest at `new` is linked in, `b` still with its old size. The writes are
numbered `h₁` to `h₆`, each to one field; a field is read behind later writes by `Apart`,
which the headers of different blocks are. The rest is the last block if `b` was. -/
theorem cutRest_spec (hs : Shape h (xs ++ b :: ys)) {new : Nat} (hroom : Room h b size new) :
    ∃ h', h.cutRest b.addr new size = .ok h' ∧ SameBounds h h' ∧
      h'.end_ = (if ys = [] then new else h.end_) ∧
      h'.hdr b.addr = ⟨b.size, b.free.toNat, new, lastOr NULL xs⟩ ∧
      h'.hdr new = ⟨b.size - 32 - size, 1, headOr NULL ys, b.addr⟩ ∧
      Chain h'.hdr NULL xs b.addr ∧ Chain h'.hdr new ys NULL ∧
      ∀ x, (∀ c ∈ ys, x < c.addr ∨ c.addr + 32 ≤ x) → (x < b.addr ∨ b.addr + 32 + b.size ≤ x) →
        h'.mem x = h.mem x := by
  obtain ⟨hvb, hnew, hfit, hstop⟩ := hroom
  have hbrk := hs.brk_lt
  have hlo := hs.lo_pos
  have hlob := hvb.1
  obtain ⟨htx, hty⟩ := hs.parts
  obtain ⟨hcx, hhb, hcy⟩ := chain_append.mp hs.chain
  have hqcases : headOr NULL ys = NULL ∨ b.addr + 32 + b.size ≤ headOr NULL ys ∧
      h.Valid (headOr NULL ys) := by
    cases ys with
    | nil => exact Or.inl rfl
    | cons y ys => exact Or.inr ⟨(hty.valid List.mem_cons_self).1, hs.valid (by simp)⟩
  have hqys : headOr NULL ys = NULL ↔ ys = [] := by
    cases ys with
    | nil => simp
    | cons y ys => simpa using hs.addr_ne_null (b := y) (by simp)
  have hvn : h.Valid new := ⟨by omega, by omega⟩
  have hbn : Apart b.addr new := Or.inl (by omega)
  -- the heap after each write
  set q := headOr NULL ys with hq
  set h₁ := h.put .free new 1 with hh₁
  set h₂ := h₁.put .size new (b.size - 32 - size) with hh₂
  set h₃ := h₂.put .prev new b.addr with hh₃
  set h₄ := h₃.put .next new q with hh₄
  set h₅ := h₄.relink q new with hh₅
  set h₆ := h₅.put .next b.addr new with hh₆
  have hqlt : q < 2 ^ 64 := by
    rcases hqcases with hq | hq
    · rw [hq]
      decide
    · have := hq.2.2
      omega
  have hqb : q = NULL ∨ Apart b.addr q := hqcases.imp_right fun h => Or.inl (by omega)
  have hqn : q = NULL ∨ Apart new q := hqcases.imp_right fun h => Or.inl (by omega)
  have hkeep : ∀ c, Apart c new → h₄.hdr c = h.hdr c := fun c hc =>
    (hdr_put_of_apart hc).trans ((hdr_put_of_apart hc).trans
      ((hdr_put_of_apart hc).trans (hdr_put_of_apart hc)))
  have hb₁ : h₁.hdr b.addr = h.hdr b.addr := hdr_put_of_apart hbn
  have hb₃ : h₃.hdr b.addr = h.hdr b.addr :=
    (hdr_put_of_apart hbn).trans ((hdr_put_of_apart hbn).trans hb₁)
  have hb₆ : h₆.hdr b.addr = ⟨b.size, b.free.toNat, new, lastOr NULL xs⟩ := by
    rw [hh₆, hdr_put_self (by simp only [Field.width]; omega), hh₅, hdr_relink_of_apart hqb,
      hkeep _ hbn, hhb]
    rfl
  have hn₆ : h₆.hdr new = ⟨b.size - 32 - size, 1, q, b.addr⟩ := by
    rw [hh₆, hdr_put_of_apart hbn.symm, hh₅, hdr_relink_of_apart hqn, hh₄,
      hdr_put_self (by simpa [Field.width] using hqlt), hh₃,
      hdr_put_self (by simp only [Field.width]; omega), hh₂,
      hdr_put_self (by simp only [Field.width]; omega), hh₁, hdr_put_self (by decide)]
    rfl
  have hsame : SameBounds h h₆ :=
    ((((SameBounds.put.trans .put).trans .put).trans .put).trans .relink).trans .put
  have hrun : h.cutRest b.addr new size =
      .ok (if q = NULL then { h₆ with end_ := new } else h₆) := by
    have hv₁ : ∀ {c}, h.Valid c → h₁.Valid c := fun hc => hc
    have hv₂ : ∀ {c}, h.Valid c → h₂.Valid c := fun hc => hc
    have hv₃ : ∀ {c}, h.Valid c → h₃.Valid c := fun hc => hc
    have hv₄ : ∀ {c}, h.Valid c → h₄.Valid c := fun hc => hc
    have hv₅ : ∀ {c}, h.Valid c → h₅.Valid c := fun hc => valid_relink.mpr hc
    have hv₆ : ∀ {c}, h.Valid c → h₆.Valid c := fun hc => hv₅ hc
    unfold Heap.cutRest
    simp only [sizeofBlock]
    rw [setFree_ok hvn, ok_bind, ← hh₁, getSize_ok (hv₁ hvb), ok_bind, hb₁, hhb,
      sub64_of_le (a := b.size) (by omega) (by omega), sub64_of_le (by omega) (by omega),
      setSize_ok (hv₁ hvn), ok_bind, ← hh₂, setPrev_ok (hv₂ hvn), ok_bind, ← hh₃,
      getNext_ok (hv₃ hvb), ok_bind, hb₃, hhb, setNext_ok (hv₃ hvn), ok_bind, ← hh₄,
      getNext_ok (hv₄ hvb), ok_bind, hkeep _ hbn, hhb,
      setPrevIf_ok (hqcases.imp_right fun hc => hv₄ hc.2), ok_bind, ← hh₅,
      setNext_ok (hv₅ hvb), ok_bind, ← hh₆, getNext_ok (hv₆ hvn), ok_bind, hn₆]
    split <;> rfl
  have hmem : ∀ x, (∀ c ∈ ys, x < c.addr ∨ c.addr + 32 ≤ x) →
      (x < b.addr ∨ b.addr + 32 + b.size ≤ x) → h₆.mem x = h.mem x := by
    intro x hx hb
    have hxn : x < new ∨ new + 32 ≤ x := by omega
    rw [hh₆, mem_put (by omega), hh₅, mem_relink, hh₄, mem_put hxn, hh₃, mem_put hxn, hh₂,
      mem_put hxn, hh₁, mem_put hxn]
    cases ys with
    | nil => exact Or.inl rfl
    | cons y ys => exact Or.inr (hx y List.mem_cons_self)
  have hchain₆ : Chain h₆.hdr NULL xs b.addr := hcx.congr fun c hc => by
    have hcb := htx.valid hc
    rw [hh₆, hdr_put_of_apart (Or.inl (by omega)), hh₅,
      hdr_relink_of_apart (hqcases.imp_right fun hq => Or.inl (by omega)),
      hkeep _ (Or.inl (by omega))]
  have hchain₆' : Chain h₆.hdr new ys NULL := by
    have hys : ∀ c ∈ ys, b.addr + 32 + b.size ≤ c.addr := fun c hc => (hty.valid hc).1
    have h₄chain : Chain h₄.hdr b.addr ys NULL :=
      hcy.congr fun c hc => hkeep _ (Or.inr (by have := hys c hc; omega))
    refine (h₄chain.relink hty (by omega) (by omega)).congr fun c hc => hdr_put_of_apart (Or.inr ?_)
    have := hys c hc
    omega
  refine ⟨_, hrun, ?_⟩
  split
  · rename_i hnull
    rw [if_pos (hqys.mp hnull)]
    exact ⟨⟨hsame.lo, hsame.brk, hsame.first, hsame.base⟩, rfl, hb₆, hn₆, hchain₆, hchain₆', hmem⟩
  · rename_i hnull
    rw [if_neg fun hnil => hnull (hqys.mpr hnil)]
    refine ⟨hsame, ?_, hb₆, hn₆, hchain₆, hchain₆', hmem⟩
    rw [hh₆, put_end, hh₅, relink_end]
    rfl

/-- A block cut in two: the first part is taken, the rest is a free block. The header of the
rest is `cutRest_spec`; the writes behind it are to the header of `b` and to its bytes, which
are cleared. -/
theorem split_spec (hs : Shape h (xs ++ b :: ys)) (hfit : size + 32 ≤ b.size) :
    ∃ h', h.split b.addr size = .ok (b.addr + 32, h') ∧
      Shape h' (xs ++ ⟨b.addr, size, false⟩ ::
        ⟨b.addr + 32 + size, b.size - 32 - size, true⟩ :: ys) ∧
      SameBounds h h' ∧ h'.end_ = (if ys = [] then b.addr + 32 + size else h.end_) ∧
      (∀ i < size, h'.mem (b.addr + 32 + i) = 0) ∧
      ∀ x, (∀ c ∈ ys, x < c.addr ∨ c.addr + 32 ≤ x) → (x < b.addr ∨ b.addr + 32 + b.size ≤ x) →
        h'.mem x = h.mem x := by
  have hvb : h.Valid b.addr := hs.valid (by simp)
  have hbrk := hs.brk_lt
  have hb := hs.tiles.valid (b := b) (by simp)
  obtain ⟨htx, hty⟩ := hs.parts
  set new := b.addr + 32 + size with hnew
  have hvn : h.Valid new := ⟨by omega, by omega⟩
  obtain ⟨h₁, hrun₁, hsame₁, hend₁, hhb₁, hhn₁, hcx₁, hcy₁, hmem₁⟩ :=
    cutRest_spec hs ⟨hvb, hnew, hfit, hb.2⟩
  have hpay : payload b.addr = b.addr + 32 := add64_of_lt (by simp only [sizeofBlock]; omega)
  have hpay' : payload new = new + 32 := add64_of_lt (by simp only [sizeofBlock]; omega)
  -- the writes of `split` behind the header of the rest
  set h₂ := h₁.clear (new + 32) (b.size - 32 - size) with hh₂
  set h₃ := h₂.put .size b.addr size with hh₃
  set h₄ := h₃.put .free b.addr 0 with hh₄
  set h₅ := h₄.clear (b.addr + 32) size with hh₅
  have hlo₁ := hsame₁.lo
  have hbrk₁ := hsame₁.brk
  have hv₁ : ∀ {c}, h.Valid c → h₁.Valid c := fun hc =>
    ⟨hlo₁ ▸ hc.1, hbrk₁ ▸ hc.2⟩
  have hkeep : ∀ c, Apart c b.addr → c + 32 ≤ b.addr + 32 ∨ new ≤ c → (c + 32 ≤ new + 32 ∨
      b.addr + 32 + b.size ≤ c) → h₅.hdr c = h₁.hdr c := fun c hc h₁' h₂' => by
    rw [hh₅, Heap.clear, Mem.fill, hdr_blit (by omega), hh₄, hdr_put_of_apart hc, hh₃,
      hdr_put_of_apart hc, hh₂, Heap.clear, Mem.fill, hdr_blit (by omega)]
  have hhb₂ : h₂.hdr b.addr = h₁.hdr b.addr := by
    rw [hh₂, Heap.clear, Mem.fill, hdr_blit (by omega)]
  have hhb₄ : h₄.hdr b.addr = ⟨size, 0, new, lastOr NULL xs⟩ := by
    rw [hh₄, hdr_put_self (by decide), hh₃, hdr_put_self (by simp only [Field.width]; omega), hhb₂,
      hhb₁]
    rfl
  have hrun : h.split b.addr size = .ok (b.addr + 32, h₅) := by
    have hv₄ : h₄.Valid b.addr := hv₁ hvb
    unfold Heap.split
    rw [hpay]
    dsimp only
    have hset₁ : h₁.memset (new + 32) (b.size - 32 - size) = .ok h₂ :=
      memset_ok (Or.inr ⟨by rw [hlo₁]; omega, by rw [hbrk₁]; omega⟩)
    have hset₄ : h₄.memset (b.addr + 32) size = .ok h₅ :=
      memset_ok (Or.inr ⟨by show h₁.lo ≤ _; omega, by show _ ≤ h₁.brk; omega⟩)
    rw [add64_of_lt (show b.addr + 32 + size < 2 ^ 64 by omega), ← hnew, hrun₁, ok_bind,
      getSize_ok (hv₁ hvn), ok_bind, hhn₁, hpay', hset₁, ok_bind,
      setSize_ok (show h₂.Valid b.addr from hv₁ hvb), ok_bind, ← hh₃,
      setFree_ok (show h₃.Valid b.addr from hv₁ hvb), ok_bind, ← hh₄, getSize_ok hv₄, ok_bind, hhb₄,
      hset₄, ok_bind]
  refine ⟨h₅, hrun, ?_, ⟨hlo₁, hbrk₁, hsame₁.first, hsame₁.base⟩, hend₁, fun i hi => ?_,
    fun x hx hxb => ?_⟩
  · refine hs.rebuild ⟨hlo₁, hbrk₁, hsame₁.first, hsame₁.base⟩ rfl ?_
      (hcx₁.congr fun c hc => ?_) ?_ ⟨?_, hcy₁.congr fun c hc => ?_⟩
    · refine ⟨rfl, ?_⟩
      show Tiled ys (new + (32 + (b.size - 32 - size))) h.brk
      rwa [show new + (32 + (b.size - 32 - size)) = b.addr + 32 + b.size by omega]
    · have := htx.valid hc
      exact hkeep _ (Or.inl (by omega)) (by omega) (by omega)
    · rw [hh₅, Heap.clear, Mem.fill, hdr_blit (by omega), hhb₄]
      rfl
    · rw [show (⟨b.addr + 32 + size, b.size - 32 - size, true⟩ : Blk).addr = new from rfl,
        hkeep _ (Or.inr (by omega)) (by omega) (by omega), hhn₁]
      rfl
    · have := hty.valid hc
      exact hkeep _ (Or.inr (by omega)) (by omega) (by omega)
  · exact mem_clear_inside hi
  · rw [hh₅, mem_clear_outside (by omega), hh₄, mem_put (by omega), hh₃, mem_put (by omega), hh₂,
      mem_clear_outside (by omega), hmem₁ x hx hxb]

/-! ### A block at the break -/

theorem write_eq_ok {h' : Heap} {a n v : Nat} (hw : h.write a n v = .ok h') (hn : 0 < n) :
    (h.lo ≤ a ∧ a + n ≤ h.brk) ∧ h'.lo = h.lo ∧ h'.brk = h.brk := by
  unfold Heap.write at hw
  split at hw
  · rename_i hacc
    obtain rfl := Except.ok.inj hw
    exact ⟨hacc.resolve_left (by omega), rfl, rfl⟩
  · exact absurd hw (by simp)

/-- A successful `sbrk` returns the old break and moves only the break. -/
theorem sbrk_eq_some {n p : Nat} {ok : Bool} {h' : Heap} (hs : h.sbrk n ok = some (p, h')) :
    p = h.brk ∧ h' = { h with brk := h'.brk } ∧ h'.brk < 2 ^ 64 ∧
      (n < 2 ^ 63 → h'.brk = h.brk + n) ∧ (2 ^ 63 ≤ n → n < 2 ^ 64 → h'.brk < h.brk) := by
  have hinc : ∃ increment : Int, (n < 2 ^ 63 → increment = n) ∧
      (¬ n < 2 ^ 63 → increment = n - 2 ^ 64) ∧
      (if ok = true ∧ 0 ≤ (h.brk : Int) + increment ∧ (h.brk : Int) + increment < 2 ^ 64 then
        some (h.brk, { h with brk := ((h.brk : Int) + increment).toNat }) else none) = some (p, h') :=
    ⟨_, fun hn => if_pos hn, fun hn => if_neg hn, hs⟩
  obtain ⟨increment, hpos, hneg, hs⟩ := hinc
  split at hs
  · rename_i hok
    obtain ⟨rfl, rfl⟩ := Prod.mk.inj (Option.some.inj hs)
    refine ⟨rfl, rfl, ?_, fun hn => ?_, fun hn hlt => ?_⟩
    · dsimp only
      omega
    · have := hpos hn
      dsimp only
      omega
    · have := hneg (by omega)
      dsimp only
      omega
  · exact absurd hs (by simp)

/-- Where the header written at the old break was accessible, the increment was
neither negative nor wrapped. -/
theorem sbrk_grows {p : Nat} {ok : Bool} {h' : Heap} (hsize : size < 2 ^ 64)
    (hs : h.sbrk (add64 size sizeofBlock) ok = some (p, h')) (hacc : h.brk + 32 ≤ h'.brk) :
    p = h.brk ∧ h' = { h with brk := h.brk + 32 + size } ∧ h.brk + 32 + size < 2 ^ 64 := by
  obtain ⟨hp, hh', hlt, hpos, hneg⟩ := sbrk_eq_some hs
  unfold add64 sizeofBlock at hpos hneg
  have hbrk : h'.brk = h.brk + 32 + size := by
    by_cases hwrap : size + 32 < 2 ^ 64
    · rw [Nat.mod_eq_of_lt hwrap] at hpos hneg
      by_cases hbig : size + 32 < 2 ^ 63
      · have := hpos hbig
        omega
      · have := hneg (by omega) hwrap
        omega
    · have hmod : (size + 32) % 2 ^ 64 = size + 32 - 2 ^ 64 := by omega
      rw [hmod] at hpos
      have := hpos (by omega)
      omega
  refine ⟨hp, ?_, by omega⟩
  rw [hh', hbrk]

/-- So it is where the first two fields of the header were written. -/
theorem sbrk_written {p v w : Nat} {ok : Bool} {h₀ g g₁ g₂ : Heap} (hsize : size < 2 ^ 64)
    (hs : h.sbrk (add64 size sizeofBlock) ok = some (p, h₀)) (e₁ : g.setFree p v = .ok g₁)
    (e₂ : g₁.setPrev p w = .ok g₂) (hg : g.brk = h₀.brk) :
    p = h.brk ∧ h₀ = { h with brk := h.brk + 32 + size } ∧ h.brk + 32 + size < 2 ^ 64 := by
  refine sbrk_grows hsize hs ?_
  obtain ⟨-, -, hbrk⟩ := write_eq_ok e₁ (by decide)
  obtain ⟨⟨-, hinside⟩, -, -⟩ := write_eq_ok e₂ (by decide)
  have hp := (sbrk_eq_some hs).1
  omega

/-- A new block at the break, `end_` being the last block. That the pointer is right is
needed here: it is its `next` that is written to, and its address that the new block gets as
`prev`. -/
theorem extend_grows (hs : Shape h bs) (hne : bs ≠ []) (hend : h.end_ = lastOr NULL bs) {ok : Bool}
    (hsbrk : h.sbrk (add64 size sizeofBlock) ok =
      some (h.brk, { h with brk := h.brk + 32 + size }))
    (hlt : h.brk + 32 + size < 2 ^ 64) :
    ∃ h', h.extend size ok = .ok (h.brk + 32, h') ∧ Shape h' (bs ++ [⟨h.brk, size, false⟩]) ∧
      h'.lo = h.lo ∧ h'.first = h.first ∧ h'.end_ = h.brk ∧
      (∀ i < size, h'.mem (h.brk + 32 + i) = 0) ∧
      ∀ x < h.brk, (∀ c ∈ bs, x < c.addr ∨ c.addr + 32 ≤ x) → h'.mem x = h.mem x := by
  obtain ⟨xs, l, rfl⟩ : ∃ xs l, bs = xs ++ [l] := by
    rcases List.eq_nil_or_concat bs with hnil | ⟨xs, l, hbs⟩
    · exact absurd hnil hne
    · exact ⟨xs, l, by rw [hbs, List.concat_eq_append]⟩
  set h₀ : Heap := { h with brk := h.brk + 32 + size } with hh₀
  have hend' : h.end_ = l.addr := by simpa using hend
  obtain ⟨htx, htl⟩ := hs.parts
  have hl := hs.tiles.valid (b := l) (by simp)
  have hlo := hs.lo_pos
  have hstop : h.brk = l.addr + 32 + l.size := htl.symm
  have hv : h₀.Valid h.brk := ⟨by show h.lo ≤ h.brk; omega, by show _ ≤ h.brk + 32 + size; omega⟩
  have hvl : h₀.Valid l.addr := ⟨hl.1, by show _ ≤ h.brk + 32 + size; omega⟩
  have hapart : Apart l.addr h.brk := Or.inl (by omega)
  -- the writes of `extend`, one after the other
  set h₁ := h₀.put .free h.brk 0 with hh₁
  set h₂ := h₁.put .prev h.brk l.addr with hh₂
  set h₃ := h₂.put .next l.addr h.brk with hh₃
  set h₄ := h₃.put .next h.brk NULL with hh₄
  set h₅ := h₄.put .size h.brk size with hh₅
  have hnew : h₅.hdr h.brk = ⟨size, 0, NULL, l.addr⟩ := by
    rw [hh₅, hdr_put_self (by simp only [Field.width]; omega), hh₄, hdr_put_self (by decide), hh₃,
      hdr_put_of_apart hapart.symm, hh₂, hdr_put_self (by simp only [Field.width]; omega), hh₁,
      hdr_put_self (by decide)]
    rfl
  have hpay : payload h.brk = h.brk + 32 := add64_of_lt (by simp only [sizeofBlock]; omega)
  set h₆ : Heap := { h₅ with end_ := h.brk } with hh₆
  have hnew₆ : h₆.hdr h.brk = ⟨size, 0, NULL, l.addr⟩ := hnew
  have hset : h₆.memset (h.brk + 32) size = .ok (h₆.clear (h.brk + 32) size) :=
    memset_ok (Or.inr ⟨by show h.lo ≤ _; omega, by show _ ≤ h.brk + 32 + size; omega⟩)
  have hrun : h.extend size ok = .ok (h.brk + 32, h₆.clear (h.brk + 32) size) := by
    unfold Heap.extend
    rw [hsbrk]
    dsimp only
    rw [setFree_ok hv, ok_bind, ← hh₁, setPrev_ok (show h₁.Valid h.brk from hv), ok_bind,
      show h₁.end_ = l.addr from hend', ← hh₂, show h₂.end_ = l.addr from hend',
      setNext_ok (show h₂.Valid l.addr from hvl), ok_bind, ← hh₃,
      setNext_ok (show h₃.Valid h.brk from hv), ok_bind, ← hh₄,
      setSize_ok (show h₄.Valid h.brk from hv), ok_bind, ← hh₅, ← hh₆,
      getSize_ok (show h₆.Valid h.brk from hv), ok_bind, hnew₆, hpay, hset, ok_bind]
  -- the header of the last block gets a new `next`, those before it stay
  have hkeep : ∀ c, c + 32 ≤ l.addr → (h₆.clear (h.brk + 32) size).hdr c = h.hdr c := by
    intro c hc
    have hcl : Apart c l.addr := Or.inl hc
    have hcn : Apart c h.brk := Or.inl (by omega)
    rw [Heap.clear, Mem.fill, hdr_blit (Or.inl (by omega))]
    show h₅.hdr c = h₀.hdr c
    rw [hh₅, hdr_put_of_apart hcn, hh₄, hdr_put_of_apart hcn, hh₃, hdr_put_of_apart hcl, hh₂,
      hdr_put_of_apart hcn, hh₁, hdr_put_of_apart hcn]
  have hhl : (h₆.clear (h.brk + 32) size).hdr l.addr =
      ⟨l.size, l.free.toNat, h.brk, lastOr NULL xs⟩ := by
    rw [Heap.clear, Mem.fill, hdr_blit (Or.inl (by omega))]
    show h₅.hdr l.addr = _
    rw [hh₅, hdr_put_of_apart hapart, hh₄, hdr_put_of_apart hapart, hh₃,
      hdr_put_self (by simp only [Field.width]; omega), hh₂, hdr_put_of_apart hapart, hh₁,
      hdr_put_of_apart hapart]
    show Field.set (h.hdr l.addr) h.brk .next = _
    rw [hs.header]
    rfl
  refine ⟨_, hrun, ⟨hs.lo_pos, hlt, ?_, ?_, ?_⟩, rfl, rfl, rfl, fun i hi => mem_clear_inside hi,
    fun x hx hxc => ?_⟩
  · show h.base = _
    rw [hs.base]
    simp
  · refine tiles_append.mpr ⟨h.brk, hs.tiles, rfl, ?_⟩
    simp only [Tiles, Blk.len, sizeofBlock]
    show h.brk + (32 + size) = h.brk + 32 + size
    omega
  · rw [List.append_assoc]
    refine chain_append.mpr ⟨(chain_append.mp hs.chain).1.congr fun c hc => ?_, hhl, ?_, trivial⟩
    · have := htx.valid hc
      exact hkeep _ (by omega)
    · rw [Heap.clear, Mem.fill, hdr_blit (Or.inl (le_refl _))]
      exact hnew
  · have hxl := hxc l (by simp)
    rw [mem_clear_outside (Or.inl (by omega))]
    show h₅.mem x = h₀.mem x
    rw [hh₅, mem_put (Or.inl hx), hh₄, mem_put (Or.inl hx), hh₃, mem_put hxl, hh₂,
      mem_put (Or.inl hx), hh₁, mem_put (Or.inl hx)]

theorem extend_spec (hs : Shape h bs) (hne : bs ≠ []) (hend : h.end_ = lastOr NULL bs)
    (hsize : size < 2 ^ 64) {ok : Bool} {p : Nat} {h' : Heap}
    (hrun : h.extend size ok = .ok (p, h')) :
    (p = NULL ∧ h' = h) ∨
    (p = h.brk + 32 ∧ Shape h' (bs ++ [⟨h.brk, size, false⟩]) ∧ h'.lo = h.lo ∧
      h'.first = h.first ∧ h'.end_ = h.brk ∧ (∀ i < size, h'.mem (h.brk + 32 + i) = 0) ∧
      ∀ x < h.brk, (∀ c ∈ bs, x < c.addr ∨ c.addr + 32 ≤ x) → h'.mem x = h.mem x) := by
  have hrun' := hrun
  unfold Heap.extend at hrun'
  split at hrun'
  · obtain ⟨rfl, rfl⟩ := Prod.mk.inj (Except.ok.inj hrun')
    exact Or.inl ⟨rfl, rfl⟩
  · rename_i new h₀ hsbrk
    right
    obtain ⟨h₁, e₁, hrun'⟩ := bind_eq_ok hrun'
    obtain ⟨h₂, e₂, -⟩ := bind_eq_ok hrun'
    obtain ⟨rfl, rfl, hlt⟩ := sbrk_written hsize hsbrk e₁ e₂ rfl
    obtain ⟨h₁, hgrow, hspec⟩ := extend_grows hs hne hend hsbrk hlt
    rw [hgrow] at hrun
    obtain ⟨rfl, rfl⟩ := Prod.mk.inj (Except.ok.inj hrun)
    exact ⟨rfl, hspec⟩

/-- The first block of the region. -/
theorem startHeap_grows (hlo : 0 < h.lo) (hbrk : h.lo = h.brk) {ok : Bool}
    (hsbrk : { h with first := false }.sbrk (add64 size sizeofBlock) ok =
      some (h.brk, { h with brk := h.brk + 32 + size, first := false }))
    (hlt : h.brk + 32 + size < 2 ^ 64) :
    ∃ h', h.startHeap size ok = .ok (h.brk + 32, h') ∧ Shape h' [⟨h.brk, size, false⟩] ∧
      h'.first = false ∧ h'.end_ = h.brk ∧ ∀ i < size, h'.mem (h.brk + 32 + i) = 0 := by
  set h₀ : Heap := { h with brk := h.brk + 32 + size, first := false, base := h.brk } with hh₀
  have hv : h₀.Valid h.brk := ⟨by show h.lo ≤ h.brk; omega, by show _ ≤ h.brk + 32 + size; omega⟩
  set h₁ := h₀.put .free h.brk 0 with hh₁
  set h₂ := h₁.put .prev h.brk NULL with hh₂
  set h₃ := h₂.put .next h.brk NULL with hh₃
  set h₄ := h₃.put .size h.brk size with hh₄
  set h₅ : Heap := { h₄ with end_ := h.brk } with hh₅
  have hnew : h₅.hdr h.brk = ⟨size, 0, NULL, NULL⟩ := by
    show h₄.hdr h.brk = _
    rw [hh₄, hdr_put_self (by simp only [Field.width]; omega), hh₃, hdr_put_self (by decide), hh₂,
      hdr_put_self (by decide), hh₁, hdr_put_self (by decide)]
    rfl
  have hpay : payload h.brk = h.brk + 32 := add64_of_lt (by simp only [sizeofBlock]; omega)
  have hset : h₅.memset (h.brk + 32) size = .ok (h₅.clear (h.brk + 32) size) :=
    memset_ok (Or.inr ⟨by show h.lo ≤ _; omega, by show _ ≤ h.brk + 32 + size; omega⟩)
  have hrun : h.startHeap size ok = .ok (h.brk + 32, h₅.clear (h.brk + 32) size) := by
    unfold Heap.startHeap
    dsimp only
    rw [hsbrk]
    dsimp only
    rw [setFree_ok hv, ok_bind, ← hh₁, setPrev_ok (show h₁.Valid h.brk from hv), ok_bind, ← hh₂,
      setNext_ok (show h₂.Valid h.brk from hv), ok_bind, ← hh₃,
      setSize_ok (show h₃.Valid h.brk from hv), ok_bind, ← hh₄, ← hh₅,
      getSize_ok (show h₅.Valid h.brk from hv), ok_bind, hnew, hpay, hset, ok_bind]
  refine ⟨_, hrun, ⟨hlo, hlt, rfl, ?_, ?_⟩, rfl, rfl, fun i hi => mem_clear_inside hi⟩
  · refine ⟨hbrk.symm, ?_⟩
    simp only [Tiles, Blk.len, sizeofBlock]
    show h.brk + (32 + size) = h.brk + 32 + size
    omega
  · refine ⟨?_, trivial⟩
    rw [Heap.clear, Mem.fill, hdr_blit (Or.inl (le_refl _))]
    exact hnew

theorem startHeap_spec (hlo : 0 < h.lo) (hbrk : h.lo = h.brk) (hsize : size < 2 ^ 64) {ok : Bool}
    {p : Nat} {h' : Heap} (hrun : h.startHeap size ok = .ok (p, h')) :
    (p = NULL ∧ h' = { h with first := false, base := sbrkFailed } ∧
      { h with first := false }.sbrk (add64 size sizeofBlock) ok = none) ∨
    (p = h.brk + 32 ∧ Shape h' [⟨h.brk, size, false⟩] ∧ h'.first = false ∧ h'.end_ = h.brk ∧
      (∀ i < size, h'.mem (h.brk + 32 + i) = 0) ∧
      ({ h with first := false }.sbrk (add64 size sizeofBlock) ok).isSome) := by
  have hrun' := hrun
  unfold Heap.startHeap at hrun'
  dsimp only at hrun'
  split at hrun'
  · obtain ⟨rfl, rfl⟩ := Prod.mk.inj (Except.ok.inj hrun')
    exact Or.inl ⟨rfl, rfl, ‹_›⟩
  · rename_i new h₀ hsbrk
    right
    obtain ⟨h₁, e₁, hrun'⟩ := bind_eq_ok hrun'
    obtain ⟨h₂, e₂, -⟩ := bind_eq_ok hrun'
    obtain ⟨rfl, rfl, hlt⟩ := sbrk_written hsize hsbrk e₁ e₂ rfl
    obtain ⟨h₁, hgrow, hshape, hfirst, hend, hzero⟩ := startHeap_grows hlo hbrk hsbrk hlt
    rw [hgrow] at hrun
    obtain ⟨rfl, rfl⟩ := Prod.mk.inj (Except.ok.inj hrun)
    exact ⟨rfl, hshape, hfirst, hend, hzero, Option.isSome_of_eq_some hsbrk⟩

/-- A request that fits in `intptr_t` is refused or grows the region. -/
theorem sbrk_of_small {ok : Bool} (hsize : size + 32 < 2 ^ 63) (h : Heap) :
    h.sbrk (add64 size sizeofBlock) ok = none ∨
    (h.sbrk (add64 size sizeofBlock) ok = some (h.brk, { h with brk := h.brk + 32 + size }) ∧
      h.brk + 32 + size < 2 ^ 64) := by
  have hadd : add64 size sizeofBlock = size + 32 := add64_of_lt (by unfold sizeofBlock; omega)
  cases hsbrk : h.sbrk (add64 size sizeofBlock) ok with
  | none => exact Or.inl rfl
  | some r =>
      obtain ⟨p, h'⟩ := r
      have hlow := (sbrk_eq_some hsbrk).2.2.2.1 (by omega)
      obtain ⟨rfl, rfl, hlt⟩ := sbrk_grows (by omega) hsbrk (by omega)
      exact Or.inr ⟨rfl, hlt⟩

/-! ### The call -/

/-- What a call for `size` bytes that returns block `c` makes of the list of
blocks and of `end_`, `brk` being the old break. -/
inductive Grant (size brk e : Nat) : List Blk → List Blk → Blk → Nat → Prop
  | whole {xs ys : List Blk} {b : Blk} (hxs : ∀ c ∈ xs, c.fits size = false)
      (hb : b.fits size = true) (hsize : b.size < size + 32) :
      Grant size brk e (xs ++ b :: ys) (xs ++ { b with free := false } :: ys)
        { b with free := false } e
  | cut {xs ys : List Blk} {b : Blk} (hxs : ∀ c ∈ xs, c.fits size = false)
      (hb : b.fits size = true) (hsize : size + 32 ≤ b.size) :
      Grant size brk e (xs ++ b :: ys)
        (xs ++ ⟨b.addr, size, false⟩ :: ⟨b.addr + 32 + size, b.size - 32 - size, true⟩ :: ys)
        ⟨b.addr, size, false⟩ (if ys = [] then b.addr + 32 + size else e)
  | new {bs : List Blk} (hbs : ∀ c ∈ bs, c.fits size = false) :
      Grant size brk e bs (bs ++ [⟨brk, size, false⟩]) ⟨brk, size, false⟩ brk

/-- The byte at `x` belongs to the payload of `d`. -/
def Blk.Has (d : Blk) (x : Nat) : Prop := d.addr + 32 ≤ x ∧ x < d.addr + 32 + d.size

/-- No header overlaps a payload. -/
theorem Shape.header_outside {d c : Blk} {x : Nat} (hs : Shape h bs) (hd : d ∈ bs) (hc : c ∈ bs)
    (hx : d.Has x) : x < c.addr ∨ c.addr + 32 ≤ x := by
  have hlen : ∀ d : Blk, d.addr + d.len = d.addr + 32 + d.size := fun d => by
    simp only [Blk.len, sizeofBlock]; omega
  have := hs.tiles.trichotomy hd hc
  rw [hlen, hlen] at this
  unfold Blk.Has at hx
  rcases this with rfl | this | this <;> omega

/-- Payloads of distinct blocks are disjoint. -/
theorem Shape.payload_outside {d c : Blk} {x : Nat} (hs : Shape h bs) (hd : d ∈ bs) (hc : c ∈ bs)
    (hne : d ≠ c) (hx : d.Has x) : x < c.addr ∨ c.addr + 32 + c.size ≤ x := by
  have hlen : ∀ d : Blk, d.addr + d.len = d.addr + 32 + d.size := fun d => by
    simp only [Blk.len, sizeofBlock]; omega
  have := (hs.tiles.trichotomy hd hc).resolve_left hne
  rw [hlen, hlen] at this
  unfold Blk.Has at hx
  omega

theorem Blk.fits_iff {c : Blk} : c.fits size = true ↔ c.free = true ∧ size ≤ c.size := by
  simp [Blk.fits]

/-- What a successful call leaves: the new list, zeroed memory for the caller,
and every allocated block as it was. -/
structure Granted (h : Heap) (bs : List Blk) (size : Nat) (h' : Heap) (bs' : List Blk) (c : Blk) :
    Prop where
  grant : Grant size h.brk h.end_ bs bs' c h'.end_
  shape : Shape h' bs'
  lo : h'.lo = h.lo
  first : h'.first = false
  zero : ∀ i < size, h'.mem (c.addr + 32 + i) = 0
  keep : ∀ d ∈ bs, d.free = false → ∀ x, d.Has x → h'.mem x = h.mem x

/-- The loop's block, whole or cut. It is cut if there is room for a header behind what was
asked for. -/
theorem place_spec (hs : Shape h (xs ++ b :: ys)) (hxs : ∀ c ∈ xs, c.fits size = false)
    (hb : b.fits size = true) (hfirst : h.first = false) :
    ∃ h' bs' c, h.place b.addr size = .ok (b.addr + 32, h') ∧ c.addr = b.addr ∧
      Granted h (xs ++ b :: ys) size h' bs' c := by
  obtain ⟨hfree, hsz⟩ := Blk.fits_iff.mp hb
  have hvb : h.Valid b.addr := hs.valid (by simp)
  have hbrk := hs.brk_lt
  have hbounds := hs.tiles.valid (b := b) (by simp)
  have hplace : h.place b.addr size =
      if 32 ≤ b.size - size then h.split b.addr size else h.takeWhole b.addr := by
    unfold Heap.place
    rw [getSize_ok hvb, ok_bind, hs.header]
    dsimp only [sizeofBlock]
    rw [sub64_of_le hsz (by omega)]
    rfl
  have hd : ∀ d ∈ xs ++ b :: ys, d.free = false → d ≠ b := by
    rintro d - hd rfl
    rw [hd] at hfree
    exact absurd hfree (by simp)
  by_cases hcut : size + 32 ≤ b.size
  · obtain ⟨h', hrun, hshape, hsame, hend, hzero, hmem⟩ := split_spec hs hcut
    have hgrant : Grant size h.brk h.end_ (xs ++ b :: ys)
        (xs ++ ⟨b.addr, size, false⟩ :: ⟨b.addr + 32 + size, b.size - 32 - size, true⟩ :: ys)
        ⟨b.addr, size, false⟩ h'.end_ := by
      rw [hend]
      exact .cut hxs hb hcut
    refine ⟨h', _, ⟨b.addr, size, false⟩, ?_, rfl, hgrant, hshape, hsame.lo,
      hsame.first.trans hfirst, hzero,
      fun d hd' hf x hx => ?_⟩
    · rw [hplace, if_pos (by omega), hrun]
    · exact hmem x (fun c hc => hs.header_outside hd' (by simp [hc]) hx)
        (hs.payload_outside hd' (by simp) (hd d hd' hf) hx)
  · obtain ⟨h', hrun, hshape, hsame, hend, hzero, hmem⟩ := takeWhole_spec hs
    have hgrant : Grant size h.brk h.end_ (xs ++ b :: ys) (xs ++ { b with free := false } :: ys)
        { b with free := false } h'.end_ := by
      rw [hend]
      exact .whole hxs hb (by omega)
    refine ⟨h', _, { b with free := false }, ?_, rfl, hgrant, hshape, hsame.lo,
      hsame.first.trans hfirst,
      fun i hi => hzero i (by omega), fun d hd' hf x hx => ?_⟩
    · rw [hplace, if_neg (by omega), hrun]
    · exact hmem x (hs.payload_outside hd' (by simp) (hd d hd' hf) hx)

/-- Where some free block fits, the call returns a block. -/
theorem mmMalloc_of_fits (hs : Shape h bs) (hfirst : h.first = false) (hpos : size ≠ 0) {ok : Bool}
    {d : Blk} (hd : d ∈ bs) (hfit : d.fits size = true) :
    ∃ h' bs' c, h.mmMalloc size ok = .ok (c.addr + 32, h') ∧ Granted h bs size h' bs' c := by
  cases hfind : bs.find? (Blk.fits size) with
  | none =>
      rw [List.find?_eq_none] at hfind
      exact absurd hfit (hfind d hd)
  | some b =>
      obtain ⟨hb, xs, ys, rfl, hxs⟩ := List.find?_eq_some_iff_append.mp hfind
      obtain ⟨h', bs', c, hplace, hc, hgrant⟩ := place_spec hs (by simpa using hxs) hb hfirst
      refine ⟨h', bs', c, ?_, hgrant⟩
      unfold Heap.mmMalloc
      rw [if_neg hpos, if_neg (by simp [hfirst]), firstFit_spec hs, ok_bind, hfind]
      exact hplace.trans (by rw [hc])

/-- Where none fits, it is up to `sbrk`. -/
theorem mmMalloc_of_none (hs : Shape h bs) (hfirst : h.first = false) (hpos : size ≠ 0) {ok : Bool}
    (hnone : ∀ c ∈ bs, c.fits size = false) : h.mmMalloc size ok = h.extend size ok := by
  have hfind : bs.find? (Blk.fits size) = none := by simpa [List.find?_eq_none] using hnone
  unfold Heap.mmMalloc
  rw [if_neg hpos, if_neg (by simp [hfirst]), firstFit_spec hs, ok_bind, hfind]
  rfl

theorem exists_fits_or_none (size : Nat) (bs : List Blk) :
    (∃ d ∈ bs, d.fits size = true) ∨ ∀ c ∈ bs, c.fits size = false := by
  by_cases h : ∃ d ∈ bs, d.fits size = true
  · exact Or.inl h
  · exact Or.inr fun c hc => by
      cases hf : c.fits size with
      | false => rfl
      | true => exact absurd ⟨c, hc, hf⟩ h

/-- **What `mm_malloc` does** once the region exists, provided `end` is the
last block where it matters: when no free block fits and `sbrk` succeeds. -/
theorem mmMalloc_spec (hs : Shape h bs) (hne : bs ≠ []) (hfirst : h.first = false) {ok : Bool}
    (hsize : size < 2 ^ 64) (hpos : size ≠ 0)
    (hend : (∀ c ∈ bs, c.fits size = false) → (h.sbrk (add64 size sizeofBlock) ok).isSome →
      h.end_ = lastOr NULL bs) {p : Nat} {h' : Heap}
    (hrun : h.mmMalloc size ok = .ok (p, h')) :
    (p = NULL ∧ h' = h ∧ ∀ c ∈ bs, c.fits size = false) ∨
    ∃ bs' c, p = c.addr + 32 ∧ Granted h bs size h' bs' c := by
  rcases exists_fits_or_none size bs with ⟨d, hd, hfit⟩ | hnone
  · obtain ⟨h₁, bs', c, hrun', hgrant⟩ := @mmMalloc_of_fits _ _ _ hs hfirst hpos ok _ hd hfit
    rw [hrun'] at hrun
    obtain ⟨rfl, rfl⟩ := Prod.mk.inj (Except.ok.inj hrun)
    exact Or.inr ⟨bs', c, rfl, hgrant⟩
  · rw [mmMalloc_of_none hs hfirst hpos hnone] at hrun
    cases hsbrk : h.sbrk (add64 size sizeofBlock) ok with
    | none =>
        unfold Heap.extend at hrun
        rw [hsbrk] at hrun
        obtain ⟨rfl, rfl⟩ := Prod.mk.inj (Except.ok.inj hrun)
        exact Or.inl ⟨rfl, rfl, hnone⟩
    | some r =>
        have hlast := hend hnone (by rw [hsbrk]; rfl)
        rcases extend_spec hs hne hlast hsize hrun with ⟨hp, hh⟩ |
          ⟨hp, hshape, hlo, hf, he, hzero, hmem⟩
        · exact Or.inl ⟨hp, hh, hnone⟩
        · have hgrant : Grant size h.brk h.end_ bs (bs ++ [⟨h.brk, size, false⟩])
              ⟨h.brk, size, false⟩ h'.end_ := by
            rw [he]
            exact .new hnone
          refine Or.inr ⟨_, _, hp, hgrant, hshape, hlo, hf.trans hfirst, hzero,
            fun d hd _ x hx => hmem x ?_ fun c hc => hs.header_outside hd hc hx⟩
          have := hs.tiles.valid hd
          exact lt_of_lt_of_le hx.2 this.2

/-- The call returns, whatever `sbrk` decides. -/
theorem mmMalloc_returns (hs : Shape h bs) (hne : bs ≠ []) (hfirst : h.first = false) {ok : Bool}
    (hsize : size + 32 < 2 ^ 63)
    (hend : (∀ c ∈ bs, c.fits size = false) → (h.sbrk (add64 size sizeofBlock) ok).isSome →
      h.end_ = lastOr NULL bs) : ∃ p h', h.mmMalloc size ok = .ok (p, h') := by
  by_cases hpos : size = 0
  · exact ⟨NULL, h, if_pos hpos⟩
  · rcases exists_fits_or_none size bs with ⟨d, hd, hfit⟩ | hnone
    · obtain ⟨h', bs', c, hrun, -⟩ := @mmMalloc_of_fits _ _ _ hs hfirst hpos ok _ hd hfit
      exact ⟨_, h', hrun⟩
    · rw [mmMalloc_of_none hs hfirst hpos hnone]
      rcases @sbrk_of_small _ ok hsize h with hsbrk | ⟨hsbrk, hlt⟩
      · refine ⟨NULL, h, ?_⟩
        unfold Heap.extend
        rw [hsbrk]
      · obtain ⟨h', hrun, -⟩ := extend_grows hs hne (hend hnone (by rw [hsbrk]; rfl)) hsbrk hlt
        exact ⟨_, h', hrun⟩

/-! ### The list after `mm_malloc` -/

namespace Grant

variable {brk e e' : Nat} {bs' : List Blk} {c : Blk}

theorem mem (hg : Grant size brk e bs bs' c e') : c ∈ bs' ∧ c.free = false ∧ size ≤ c.size := by
  cases hg with
  | whole _ hb _ => exact ⟨by simp, rfl, (Blk.fits_iff.mp hb).2⟩
  | cut _ _ _ => exact ⟨by simp, rfl, le_refl _⟩
  | new _ => exact ⟨by simp, rfl, le_refl _⟩

theorem ne_nil (hg : Grant size brk e bs bs' c e') : bs' ≠ [] :=
  List.ne_nil_of_mem hg.mem.1

/-- Allocated blocks stay. -/
theorem mem_of_alloc (hg : Grant size brk e bs bs' c e') {d : Blk} (hd : d ∈ bs)
    (hf : d.free = false) : d ∈ bs' := by
  cases hg with
  | @whole xs ys b _ hb _ | @cut xs ys b _ hb _ =>
      have hne : d ≠ b := by
        rintro rfl
        rw [(Blk.fits_iff.mp hb).1] at hf
        exact absurd hf (by simp)
      rcases List.mem_append.mp hd with hd | hd
      · simp [hd]
      · rcases List.mem_cons.mp hd with rfl | hd
        · exact absurd rfl hne
        · simp [hd]
  | new _ => simp [hd]

/-- The new block is none of the allocated ones. -/
theorem addr_ne (hs : Shape h bs) (hg : Grant size h.brk e bs bs' c e') {d : Blk} (hd : d ∈ bs)
    (hf : d.free = false) : c.addr ≠ d.addr := by
  have hold : ∀ b ∈ bs, b.free = true → b.addr ≠ d.addr := by
    intro b hb hbf heq
    have hne : b ≠ d := by
      rintro rfl
      rw [hbf] at hf
      exact absurd hf (by simp)
    have := hs.apart hb hd hne
    unfold Apart at this
    omega
  cases hg with
  | @whole xs ys b _ hb _ | @cut xs ys b _ hb _ =>
      exact hold b (by simp) (Blk.fits_iff.mp hb).1
  | new _ =>
      have := hs.tiles.valid hd
      show h.brk ≠ d.addr
      omega

theorem coalesced (hg : Grant size brk e bs bs' c e') (hc : Coalesced bs) : Coalesced bs' := by
  cases hg with
  | @whole xs ys b _ _ _ =>
      obtain ⟨hxs, hys, -⟩ := coalesced_middle.mp hc
      exact coalesced_middle.mpr ⟨hxs, hys, fun hf => absurd hf (by simp)⟩
  | @cut xs ys b _ hb _ =>
      obtain ⟨hxs, hys, hfree⟩ := coalesced_middle.mp hc
      have hrest : Coalesced (⟨b.addr + 32 + size, b.size - 32 - size, true⟩ :: ys) :=
        (@coalesced_middle [] ys _).mpr
          ⟨List.isChain_nil, hys, fun _ => ⟨by simp, (hfree (Blk.fits_iff.mp hb).1).2⟩⟩
      exact coalesced_middle.mpr ⟨hxs, hrest, fun hf => absurd hf (by simp)⟩
  | new _ =>
      exact coalesced_middle.mpr ⟨hc, List.isChain_nil, fun hf => absurd hf (by simp)⟩

/-- If `end_` was the last block, it is again. -/
theorem end_last (hg : Grant size brk e bs bs' c e') (he : e = lastOr NULL bs) :
    e' = lastOr NULL bs' := by
  cases hg with
  | whole _ _ _ => simpa using he
  | @cut xs ys b _ _ _ =>
      cases ys with
      | nil => simp
      | cons y ys => simpa using he
  | new _ => simp

end Grant

end OsTools.MmAlloc

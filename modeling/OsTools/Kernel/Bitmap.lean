import Mathlib.Data.Nat.Bitwise
import OsTools.Lib.Bytes
import OsTools.Lib.Except
/-!
# OsTools.Kernel.Bitmap

The bitmap of `lib/kernel/bitmap.c`: an array of 32-bit elements, held as the
bytes that `bitmap_write` puts into a file. `Bitmap.bit` is the abstract view,
and every operation has one lemma that says what it does to the bits.

A failed `ASSERT` is an error (`Stop`), and sums of indices wrap like `size_t`.

A bit is found by division and remainder, in the source as here, and `bit_mark` and
`bit_reset` are the only lemmas that look into an element. All loops are by induction on the
bits that are left.
-/

namespace OsTools.Kernel

/-- How the kernel stops: a failed `ASSERT`, a `PANIC`, or the use of a null or
freed pointer. -/
inductive Stop
  | assertion
  | panic
  | fault
  deriving DecidableEq

/-- The number of bits in an element. -/
def ELEM_BITS : Nat := 32

/-- The index of the element that contains the bit `bitIdx`. -/
def elemIdx (bitIdx : Nat) : Nat := bitIdx / ELEM_BITS

/-- An element in which only the bit for `bitIdx` is on. -/
def bitMask (bitIdx : Nat) : Nat := 2 ^ (bitIdx % ELEM_BITS)

/-- The number of elements for `bitCnt` bits. -/
def elemCnt (bitCnt : Nat) : Nat := (bitCnt + ELEM_BITS - 1) % 2 ^ 32 / ELEM_BITS

/-- The number of bytes for `bitCnt` bits. -/
def byteCnt (bitCnt : Nat) : Nat := 4 * elemCnt bitCnt

/-- `struct bitmap`. -/
structure Bitmap where
  bitCnt : Nat
  bits : Mem

namespace Bitmap

/-- `b->bits[i]`. -/
def elem (b : Bitmap) (i : Nat) : Nat := b.bits.load (4 * i) 4

/-- `b->bits[i] = v`. -/
def setElem (b : Bitmap) (i v : Nat) : Bitmap := { b with bits := b.bits.store (4 * i) 4 v }

/-- The mask of the bits in use in the last element. -/
def lastMask (b : Bitmap) : Nat :=
  let lastBits := b.bitCnt % ELEM_BITS
  if lastBits ≠ 0 then 2 ^ lastBits - 1 else 2 ^ 32 - 1

/-- `bitmap_mark`. -/
def mark (b : Bitmap) (bitIdx : Nat) : Bitmap :=
  b.setElem (elemIdx bitIdx) (b.elem (elemIdx bitIdx) ||| bitMask bitIdx)

/-- `bitmap_reset`. -/
def reset (b : Bitmap) (bitIdx : Nat) : Bitmap :=
  b.setElem (elemIdx bitIdx) (b.elem (elemIdx bitIdx) &&& ((2 ^ 32 - 1) ^^^ bitMask bitIdx))

/-- `bitmap_set`. -/
def set (b : Bitmap) (idx : Nat) (value : Bool) : Except Stop Bitmap :=
  if idx < b.bitCnt then .ok (if value then b.mark idx else b.reset idx) else .error .assertion

/-- `bitmap_test`. -/
def test (b : Bitmap) (idx : Nat) : Except Stop Bool :=
  if idx < b.bitCnt then .ok (decide (b.elem (elemIdx idx) &&& bitMask idx ≠ 0))
  else .error .assertion

/-- The assertions on the `cnt` bits starting at `start`. -/
def inRange (b : Bitmap) (start cnt : Nat) : Bool :=
  start ≤ b.bitCnt ∧ (start + cnt) % 2 ^ 32 ≤ b.bitCnt

/-- The loop of `bitmap_set_multiple`. -/
def setLoop (value : Bool) : Nat → Bitmap → Nat → Except Stop Bitmap
  | 0, b, _ => .ok b
  | cnt + 1, b, idx => do
      let b ← b.set idx value
      setLoop value cnt b (idx + 1)

/-- `bitmap_set_multiple`. -/
def setMultiple (b : Bitmap) (start cnt : Nat) (value : Bool) : Except Stop Bitmap :=
  if b.inRange start cnt then setLoop value cnt b start else .error .assertion

/-- `bitmap_set_all`. -/
def setAll (b : Bitmap) (value : Bool) : Except Stop Bitmap := b.setMultiple 0 b.bitCnt value

/-- The loop of `bitmap_contains`. -/
def containsLoop (b : Bitmap) (value : Bool) : Nat → Nat → Except Stop Bool
  | 0, _ => .ok false
  | cnt + 1, idx => do
      let bit ← b.test idx
      if bit = value then .ok true else containsLoop b value cnt (idx + 1)

/-- `bitmap_contains`. -/
def contains (b : Bitmap) (start cnt : Nat) (value : Bool) : Except Stop Bool :=
  if b.inRange start cnt then b.containsLoop value cnt start else .error .assertion

/-- `bitmap_all`. -/
def all (b : Bitmap) (start cnt : Nat) : Except Stop Bool := do
  let found ← b.contains start cnt false
  .ok !found

/-- The loop of `bitmap_count`. -/
def countLoop (b : Bitmap) (value : Bool) : Nat → Nat → Nat → Except Stop Nat
  | 0, _, valueCnt => .ok valueCnt
  | cnt + 1, idx, valueCnt => do
      let bit ← b.test idx
      countLoop b value cnt (idx + 1) (if bit = value then valueCnt + 1 else valueCnt)

/-- `bitmap_count`. -/
def count (b : Bitmap) (start cnt : Nat) (value : Bool) : Except Stop Nat :=
  if b.inRange start cnt then b.countLoop value cnt start 0 else .error .assertion

/-- The loop of `bitmap_scan`, over `n` starting points. -/
def scanLoop (b : Bitmap) (cnt : Nat) (value : Bool) : Nat → Nat → Except Stop (Option Nat)
  | 0, _ => .ok none
  | n + 1, i => do
      let found ← b.contains i cnt !value
      if !found then .ok (some i) else scanLoop b cnt value n (i + 1)

/-- `bitmap_scan`; `BITMAP_ERROR` is `none`. -/
def scan (b : Bitmap) (start cnt : Nat) (value : Bool) : Except Stop (Option Nat) :=
  if start ≤ b.bitCnt then
    if cnt ≤ b.bitCnt then
      let last := b.bitCnt - cnt
      b.scanLoop cnt value (last + 1 - start) start
    else .ok none
  else .error .assertion

/-- `bitmap_scan_and_flip`. -/
def scanAndFlip (b : Bitmap) (start cnt : Nat) (value : Bool) :
    Except Stop (Bitmap × Option Nat) := do
  match ← b.scan start cnt value with
  | none => .ok (b, none)
  | some idx =>
      let b ← b.setMultiple idx cnt !value
      .ok (b, some idx)

/-- `bitmap_create`, given whether its two calls of `malloc` succeed and what the
second finds in memory. `malloc (0)` never succeeds. -/
def create (bitCnt : Nat) (garbage : Mem) (header bits : Bool) : Except Stop (Option Bitmap) :=
  if header ∧ (bits ∧ byteCnt bitCnt ≠ 0 ∨ bitCnt = 0) then do
    let b ← setAll ⟨bitCnt, garbage⟩ false
    .ok (some b)
  else .ok none

/-- What `bitmap_read` makes of the first `size` bytes of `file`. -/
def readFrom (b : Bitmap) (size : Nat) (file : Mem) : Bitmap :=
  let b := { b with bits := b.bits.blit 0 size file }
  let last := elemCnt b.bitCnt - 1
  b.setElem last (b.elem last &&& b.lastMask)

/-! ### The bits -/

/-- The bit numbered `k`. -/
def bit (b : Bitmap) (k : Nat) : Bool := (b.elem (elemIdx k)).testBit (k % ELEM_BITS)

/-- A bitmap that `bitmap_create` can give: the sizes computed for it do not wrap. -/
def Fits (b : Bitmap) : Prop := b.bitCnt + 31 < 2 ^ 32

variable {b : Bitmap} {i k v : Nat}

theorem Fits.of_bitCnt_eq {b' : Bitmap} (h : b.Fits) (hcnt : b'.bitCnt = b.bitCnt) : b'.Fits := by
  unfold Fits at h ⊢
  rw [hcnt]
  exact h

theorem elem_lt (b : Bitmap) (i : Nat) : b.elem i < 2 ^ 32 := Mem.load_lt b.bits (4 * i) 4

theorem elem_setElem (hv : v < 2 ^ 32) (i j : Nat) :
    (b.setElem i v).elem j = if j = i then v else b.elem j := by
  unfold elem setElem
  split
  · rename_i h
    rw [h]
    exact Mem.load_store hv
  · exact Mem.load_blit_of_disjoint (by omega)

theorem bit_eq_bit {b' : Bitmap} (h : b'.elem (elemIdx k) = b.elem (elemIdx k)) :
    b'.bit k = b.bit k := by
  unfold bit
  rw [h]

theorem eq_of_idx {j : Nat} (h : elemIdx j = elemIdx k) (h' : j % ELEM_BITS = k % ELEM_BITS) :
    j = k := by
  unfold elemIdx ELEM_BITS at *
  omega

theorem bitMask_lt (k : Nat) : bitMask k < 2 ^ 32 :=
  Nat.pow_lt_pow_right (by decide) (Nat.mod_lt k (by decide))

@[simp] theorem bitCnt_mark : (b.mark k).bitCnt = b.bitCnt := rfl

@[simp] theorem bitCnt_reset : (b.reset k).bitCnt = b.bitCnt := rfl

theorem bit_mark (b : Bitmap) (k j : Nat) : (b.mark k).bit j = if j = k then true else b.bit j := by
  have hlt : b.elem (elemIdx k) ||| bitMask k < 2 ^ 32 :=
    Nat.or_lt_two_pow (b.elem_lt _) (bitMask_lt k)
  unfold bit mark
  rw [elem_setElem hlt]
  by_cases hidx : elemIdx j = elemIdx k
  · rw [if_pos hidx, Nat.testBit_or, hidx]
    unfold bitMask
    rw [Nat.testBit_two_pow]
    by_cases hjk : j = k
    · simp [hjk]
    · have hmod : k % ELEM_BITS ≠ j % ELEM_BITS := fun h => hjk (eq_of_idx hidx h.symm)
      simp [hjk, hmod]
  · have hjk : j ≠ k := fun h => hidx (by rw [h])
    rw [if_neg hidx, if_neg hjk]

theorem bit_reset (b : Bitmap) (k j : Nat) :
    (b.reset k).bit j = if j = k then false else b.bit j := by
  have hlt : b.elem (elemIdx k) &&& ((2 ^ 32 - 1) ^^^ bitMask k) < 2 ^ 32 :=
    Nat.lt_of_le_of_lt Nat.and_le_left (b.elem_lt _)
  unfold bit reset
  rw [elem_setElem hlt]
  by_cases hidx : elemIdx j = elemIdx k
  · have hmod : j % ELEM_BITS < 32 := Nat.mod_lt j (by decide)
    rw [if_pos hidx, Nat.testBit_and, Nat.testBit_xor, Nat.testBit_two_pow_sub_one, hidx]
    unfold bitMask
    rw [Nat.testBit_two_pow]
    by_cases hjk : j = k
    · rw [hjk] at hmod
      simp [hjk, hmod]
    · have hne : k % ELEM_BITS ≠ j % ELEM_BITS := fun h => hjk (eq_of_idx hidx h.symm)
      simp [hjk, hne, hmod]
  · have hjk : j ≠ k := fun h => hidx (by rw [h])
    rw [if_neg hidx, if_neg hjk]

/-- `bitmap_set`. -/
theorem set_spec (hk : k < b.bitCnt) (value : Bool) :
    ∃ b', b.set k value = .ok b' ∧ b'.bitCnt = b.bitCnt ∧
      ∀ j, b'.bit j = if j = k then value else b.bit j := by
  unfold set
  rw [if_pos hk]
  cases value with
  | false => exact ⟨_, rfl, rfl, bit_reset b k⟩
  | true => exact ⟨_, rfl, rfl, bit_mark b k⟩

/-- `bitmap_test`. -/
theorem test_eq (hk : k < b.bitCnt) : b.test k = .ok (b.bit k) := by
  unfold test bit bitMask
  rw [if_pos hk, Nat.and_two_pow]
  cases (b.elem (elemIdx k)).testBit (k % ELEM_BITS) <;> simp

theorem setLoop_spec (value : Bool) {cnt idx : Nat} (h : idx + cnt ≤ b.bitCnt) :
    ∃ b', setLoop value cnt b idx = .ok b' ∧ b'.bitCnt = b.bitCnt ∧
      ∀ j, b'.bit j = if idx ≤ j ∧ j < idx + cnt then value else b.bit j := by
  induction cnt generalizing b idx with
  | zero => exact ⟨b, rfl, rfl, fun j => by rw [if_neg (by omega)]⟩
  | succ cnt ih =>
      obtain ⟨b₁, hset, hcnt, hbit⟩ := set_spec (b := b) (k := idx) (by omega) value
      obtain ⟨b', hloop, hcnt', hbit'⟩ := @ih b₁ (idx + 1) (by omega)
      refine ⟨b', ?_, hcnt'.trans hcnt, fun j => ?_⟩
      · unfold setLoop
        rw [hset]
        exact hloop
      · rw [hbit' j, hbit j]
        split_ifs <;> first | rfl | omega

theorem Fits.lt (hb : b.Fits) : b.bitCnt < 2 ^ 32 := by
  unfold Fits at hb
  omega

theorem inRange_iff (hb : b.bitCnt < 2 ^ 32) {start cnt : Nat} (h : start + cnt ≤ b.bitCnt) :
    b.inRange start cnt = true := by
  unfold inRange
  rw [decide_eq_true_iff, Nat.mod_eq_of_lt (by omega)]
  omega

/-- `bitmap_set_multiple`. -/
theorem setMultiple_spec (hb : b.bitCnt < 2 ^ 32) {start cnt : Nat} (h : start + cnt ≤ b.bitCnt)
    (value : Bool) :
    ∃ b', b.setMultiple start cnt value = .ok b' ∧ b'.bitCnt = b.bitCnt ∧
      ∀ j, b'.bit j = if start ≤ j ∧ j < start + cnt then value else b.bit j := by
  unfold setMultiple
  rw [if_pos (inRange_iff hb h)]
  exact setLoop_spec value h

theorem containsLoop_spec (value : Bool) {cnt idx : Nat} (h : idx + cnt ≤ b.bitCnt) :
    ∃ r, b.containsLoop value cnt idx = .ok r ∧
      (r = true ↔ ∃ k, idx ≤ k ∧ k < idx + cnt ∧ b.bit k = value) := by
  induction cnt generalizing idx with
  | zero => exact ⟨false, rfl, ⟨fun h => (by cases h), fun ⟨k, h₁, h₂, _⟩ => by omega⟩⟩
  | succ cnt ih =>
      unfold containsLoop
      rw [test_eq (by omega), ok_bind]
      by_cases hbit : b.bit idx = value
      · rw [if_pos hbit]
        exact ⟨true, rfl, ⟨fun _ => ⟨idx, Nat.le_refl _, by omega, hbit⟩, fun _ => rfl⟩⟩
      · rw [if_neg hbit]
        obtain ⟨r, hloop, hr⟩ := @ih (idx + 1) (by omega)
        refine ⟨r, hloop, hr.trans ⟨fun ⟨k, h₁, h₂, hk⟩ => ⟨k, by omega, by omega, hk⟩,
          fun ⟨k, h₁, h₂, hk⟩ => ⟨k, ?_, by omega, hk⟩⟩⟩
        have hne : k ≠ idx := fun heq => hbit (by rw [← heq, hk])
        omega

/-- `bitmap_contains`. -/
theorem contains_spec (hb : b.bitCnt < 2 ^ 32) {start cnt : Nat} (h : start + cnt ≤ b.bitCnt)
    (value : Bool) :
    ∃ r, b.contains start cnt value = .ok r ∧
      (r = true ↔ ∃ k, start ≤ k ∧ k < start + cnt ∧ b.bit k = value) := by
  unfold contains
  rw [if_pos (inRange_iff hb h)]
  exact containsLoop_spec value h

/-- `bitmap_all`, where all bits are set. -/
theorem all_eq_true (hb : b.bitCnt < 2 ^ 32) {start cnt : Nat} (h : start + cnt ≤ b.bitCnt)
    (hall : ∀ k, start ≤ k → k < start + cnt → b.bit k = true) : b.all start cnt = .ok true := by
  obtain ⟨r, hcontains, hr⟩ := contains_spec hb h false
  have hfalse : r = false := by
    cases r with
    | false => rfl
    | true =>
        obtain ⟨k, h₁, h₂, hk⟩ := hr.mp rfl
        rw [hall k h₁ h₂] at hk
        cases hk
  unfold all
  rw [hcontains, hfalse]
  rfl

/-- The `cnt` bits from `i` on are all `value`. -/
def Group (b : Bitmap) (i cnt : Nat) (value : Bool) : Prop :=
  ∀ k, i ≤ k → k < i + cnt → b.bit k = value

/-- What `bitmap_scan` finds: the first group at or after `start`. -/
structure First (b : Bitmap) (start cnt : Nat) (value : Bool) (i : Nat) : Prop where
  start_le : start ≤ i
  le : i + cnt ≤ b.bitCnt
  group : b.Group i cnt value
  first : ∀ j, start ≤ j → j < i → ¬ b.Group j cnt value

/-- The loop of `bitmap_scan` finds the first group of `cnt` bits with the value, among the
`n` starting points from `i` on. By induction on the starting points that are left. -/
theorem scanLoop_spec (hb : b.bitCnt < 2 ^ 32) {cnt n i : Nat} (value : Bool)
    (h : n = 0 ∨ i + (n - 1) + cnt ≤ b.bitCnt) :
    ∃ r, b.scanLoop cnt value n i = .ok r ∧
      (∀ j, r = some j → b.First i cnt value j) ∧
      (r = none → ∀ j, i ≤ j → j < i + n → ¬ b.Group j cnt value) := by
  induction n generalizing i with
  | zero => exact ⟨none, rfl, fun j hj => (by cases hj), fun _ j h₁ h₂ => by omega⟩
  | succ n ih =>
      obtain ⟨r, hcontains, hr⟩ := @contains_spec b hb i cnt (by omega) (!value)
      have hgroup : r = false ↔ b.Group i cnt value := by
        constructor
        · intro hfalse k h₁ h₂
          by_contra hk
          have : r = true := hr.mpr ⟨k, h₁, h₂, by cases value <;> simpa using hk⟩
          rw [hfalse] at this
          cases this
        · intro hall
          cases r with
          | false => rfl
          | true =>
              obtain ⟨k, h₁, h₂, hk⟩ := hr.mp rfl
              rw [hall k h₁ h₂] at hk
              cases value <;> cases hk
      unfold scanLoop
      rw [hcontains, ok_bind]
      cases r with
      | false =>
          refine ⟨some i, rfl, fun j hj => ?_, fun h => (by cases h)⟩
          cases hj
          exact ⟨Nat.le_refl _, by omega, hgroup.mp rfl, fun j h₁ h₂ => by omega⟩
      | true =>
          have hnot : ¬ b.Group i cnt value := fun h => by cases hgroup.mpr h
          obtain ⟨r, hloop, hsome, hnone⟩ := ih (i := i + 1) (by omega)
          have hstep : ∀ j, i ≤ j → (i + 1 ≤ j → ¬ b.Group j cnt value) →
              ¬ b.Group j cnt value := by
            intro j h₁ h₂
            rcases Nat.eq_or_lt_of_le h₁ with rfl | h₁
            · exact hnot
            · exact h₂ h₁
          refine ⟨r, hloop, fun j hj => ?_, fun hr j h₁ h₂ => ?_⟩
          · have hfirst := hsome j hj
            exact ⟨by have := hfirst.start_le; omega, hfirst.le, hfirst.group,
              fun l h₁ h₂ => hstep l h₁ fun h => hfirst.first l h h₂⟩
          · exact hstep j h₁ fun h => hnone hr j h (by omega)

/-- `bitmap_scan`. -/
theorem scan_spec (hb : b.bitCnt < 2 ^ 32) {start : Nat} (hstart : start ≤ b.bitCnt) (cnt : Nat)
    (value : Bool) :
    ∃ r, b.scan start cnt value = .ok r ∧
      (∀ j, r = some j → b.First start cnt value j) ∧
      (r = none → ∀ j, start ≤ j → j + cnt ≤ b.bitCnt → ¬ b.Group j cnt value) := by
  unfold scan
  rw [if_pos hstart]
  by_cases hcnt : cnt ≤ b.bitCnt
  · rw [if_pos hcnt]
    obtain ⟨r, hloop, hsome, hnone⟩ := @scanLoop_spec b hb cnt (b.bitCnt - cnt + 1 - start) start
      value (by omega)
    exact ⟨r, hloop, hsome, fun hr j h₁ h₂ => hnone hr j h₁ (by omega)⟩
  · rw [if_neg hcnt]
    exact ⟨none, rfl, fun j hj => (by cases hj), fun _ j _ hj => by omega⟩

/-- `bitmap_scan_and_flip` flips the group that `bitmap_scan` finds. -/
theorem scanAndFlip_scan (hb : b.bitCnt < 2 ^ 32) {start : Nat} (hstart : start ≤ b.bitCnt)
    (cnt : Nat) (value : Bool) :
    ∃ b' r, b.scan start cnt value = .ok r ∧ b.scanAndFlip start cnt value = .ok (b', r) ∧
      b'.bitCnt = b.bitCnt ∧ (r = none → b' = b) ∧
      ∀ i, r = some i → ∀ j, b'.bit j = if i ≤ j ∧ j < i + cnt then !value else b.bit j := by
  obtain ⟨r, hscan, hsome, -⟩ := scan_spec hb hstart cnt value
  unfold scanAndFlip
  rw [hscan, ok_bind]
  cases r with
  | none => exact ⟨b, none, rfl, rfl, rfl, fun _ => rfl, fun i hi => by cases hi⟩
  | some i =>
      obtain ⟨b', hset, hcnt, hbit⟩ := setMultiple_spec hb (hsome i rfl).le (!value)
      refine ⟨b', some i, rfl, ?_, hcnt, fun h => (by cases h), fun j hj => ?_⟩
      · dsimp only
        rw [hset]
        rfl
      · cases hj
        exact hbit

/-- `bitmap_scan_and_flip`, looking for clear bits from the first one on. -/
theorem scanAndFlip_spec (hb : b.bitCnt < 2 ^ 32) (cnt : Nat) :
    ∃ b' r, b.scanAndFlip 0 cnt false = .ok (b', r) ∧ b'.bitCnt = b.bitCnt ∧
      (r = none → b' = b ∧ ∀ j, j + cnt ≤ b.bitCnt → ¬ b.Group j cnt false) ∧
      (∀ i, r = some i → b.First 0 cnt false i ∧
        ∀ j, b'.bit j = if i ≤ j ∧ j < i + cnt then true else b.bit j) := by
  obtain ⟨r, hscan, hsome, hnone⟩ := scan_spec hb (Nat.zero_le _) cnt false
  obtain ⟨b', r', hscan', hflip, hcnt, hsame, hbit⟩ :=
    scanAndFlip_scan hb (Nat.zero_le _) cnt false
  rw [hscan] at hscan'
  cases hscan'
  exact ⟨b', r, hflip, hcnt, fun hr => ⟨hsame hr, fun j hj => hnone hr j (Nat.zero_le _) hj⟩,
    fun i hi => ⟨hsome i hi, hbit i hi⟩⟩

/-- A bitmap that `bitmap_create` returns fits, and all its bits are clear. When
memory does not run out, there is none only if it would be too large. -/
theorem create_spec {bitCnt : Nat} (hcnt : bitCnt < 2 ^ 32) (garbage : Mem) (header bits : Bool) :
    ∃ r, create bitCnt garbage header bits = .ok r ∧
      (r = none → header = true ∧ bits = true → 2 ^ 32 ≤ bitCnt + 31) ∧
      ∀ b, r = some b → b.Fits ∧ b.bitCnt = bitCnt ∧ ∀ k, k < bitCnt → b.bit k = false := by
  unfold create
  by_cases h : header ∧ (bits ∧ byteCnt bitCnt ≠ 0 ∨ bitCnt = 0)
  · have hfits : Fits ⟨bitCnt, garbage⟩ := by
      have hbytes := h.2
      unfold Fits byteCnt elemCnt ELEM_BITS at *
      dsimp only
      omega
    obtain ⟨b, hset, hb, hbit⟩ := @setMultiple_spec ⟨bitCnt, garbage⟩ hfits.lt 0 bitCnt
      (Nat.le_of_eq (Nat.zero_add bitCnt)) false
    rw [if_pos h]
    unfold setAll
    dsimp only
    rw [hset, ok_bind]
    refine ⟨some b, rfl, fun hf => (by cases hf), fun b' hb' => ?_⟩
    cases hb'
    refine ⟨?_, hb, fun k hk => ?_⟩
    · unfold Fits
      rw [hb]
      exact hfits
    · rw [hbit k, if_pos (by omega)]
  · rw [if_neg h]
    refine ⟨none, rfl, fun _ hm => ?_, fun b hb => by cases hb⟩
    by_contra hsmall
    refine h ⟨hm.1, ?_⟩
    by_cases hzero : bitCnt = 0
    · exact Or.inr hzero
    · refine Or.inl ⟨hm.2, ?_⟩
      unfold byteCnt elemCnt ELEM_BITS
      omega

theorem elemCnt_eq (hb : b.Fits) : elemCnt b.bitCnt = (b.bitCnt + 31) / 32 := by
  unfold elemCnt Fits ELEM_BITS at *
  rw [Nat.mod_eq_of_lt (by omega)]
  rfl

/-- Masking the last element keeps the bits in use. -/
theorem bit_maskLast (hb : b.Fits) (hk : k < b.bitCnt) :
    (b.setElem (elemCnt b.bitCnt - 1)
      (b.elem (elemCnt b.bitCnt - 1) &&& b.lastMask)).bit k = b.bit k := by
  have hmask : b.elem (elemCnt b.bitCnt - 1) &&& b.lastMask < 2 ^ 32 :=
    Nat.lt_of_le_of_lt Nat.and_le_left (b.elem_lt _)
  unfold bit
  rw [elem_setElem hmask]
  by_cases hlast : elemIdx k = elemCnt b.bitCnt - 1
  · have hbit : b.lastMask.testBit (k % ELEM_BITS) = true := by
      rw [elemCnt_eq hb] at hlast
      unfold lastMask
      unfold elemIdx ELEM_BITS at *
      dsimp only
      split <;> rw [Nat.testBit_two_pow_sub_one, decide_eq_true_iff] <;> omega
    rw [if_pos hlast, Nat.testBit_and, hbit, Bool.and_true, hlast]
  · rw [if_neg hlast]

/-- The bits in use are in the first bytes. -/
theorem bit_congr {b' : Bitmap} (hb : b.Fits)
    (h : ∀ i, i < byteCnt b.bitCnt → b'.bits i = b.bits i) (hk : k < b.bitCnt) :
    b'.bit k = b.bit k := by
  refine bit_eq_bit (Mem.load_congr fun i hi => h _ ?_)
  unfold byteCnt
  rw [elemCnt_eq hb]
  unfold elemIdx ELEM_BITS
  omega

/-- Whatever the memory of the new bitmap holds, the bits in use are those of the
file. -/
theorem bit_readFrom_file (hb : b.Fits) (file : Mem) (hk : k < b.bitCnt) :
    (b.readFrom (byteCnt b.bitCnt) file).bit k = bit ⟨b.bitCnt, file⟩ k := by
  refine Eq.trans (@bit_maskLast { b with bits := b.bits.blit 0 (byteCnt b.bitCnt) file } k hb hk)
    (@bit_congr ⟨b.bitCnt, file⟩ k _ hb (fun i hi => ?_) hk)
  have hblit := Mem.blit_of_inside (m := b.bits) (a := 0) (f := file) hi
  rw [Nat.zero_add] at hblit
  exact hblit

end Bitmap

end OsTools.Kernel

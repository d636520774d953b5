import OsTools.Lib.Digits
import OsTools.Stdlib.Printf
/-!
# OsTools.Stdlib.FormatInteger

What `format_integer` prints. The buffer is never too small (`formatInteger_ok`). Up to the
precision that fits into it, the text is the one that the C standard asks for, but for one
combination of options: `parse_conversion` drops the flag `0` next to `-` before it takes a
negative width for the flag `-`, and then the number is padded on both sides
(`renders_iff`).

## Proof shape

The buffer comes first. A digit takes at most two characters with its separator, and a value
of 64 bits has at most 22 digits in base 8, so that the digits fit (`digitsLoop_ok`); the
loop for the zeros checks the room itself.

Then the text is compared in three steps. `fillBuffer_eq` says what the buffer holds: digits
and zeros in front of them, as many as the standard has (`places`) as far as there is room.
`emit_text` puts the sign, the mark and the padding around it, in the order in which the
function puts them out. `standard_eq` brings the text of the standard into the same shape,
in which the two differ only in the flags that are left after `parse_conversion`
(`normalise`). So the equivalence is a comparison of flags, and `PaddedTwice` is the one
case in which they are not the same.

The least `int` is its own negative. The number of blanks is computed from it with one more
wrap, which makes it right for every length but 0 (`not_least`).
-/

namespace OsTools.Stdlib.Printf

/-! ### The C standard -/

/-- The integer conversions; `d` stands for `i` too. -/
inductive Specifier
  | d
  | o
  | u
  | x
  | X
  deriving DecidableEq

namespace Specifier

def radix : Specifier → Nat
  | d => 10
  | o => 8
  | u => 10
  | x => 16
  | X => 16

/-- The values of the type of the argument. -/
def InRange : Specifier → Int → Prop
  | d, v => -2 ^ 63 ≤ v ∧ v < 2 ^ 63
  | _, v => 0 ≤ v ∧ v < 2 ^ 64

instance (s : Specifier) (v : Int) : Decidable (s.InRange v) :=
  match s with
  | d => inferInstanceAs (Decidable (-2 ^ 63 ≤ v ∧ v < 2 ^ 63))
  | o | u | x | X => inferInstanceAs (Decidable (0 ≤ v ∧ v < 2 ^ 64))

/-- The character of a digit. -/
def digit (s : Specifier) (n : Nat) : UInt8 :=
  if n < 10 then UInt8.ofNat (48 + n)
  else if s = X then UInt8.ofNat (65 + (n - 10)) else UInt8.ofNat (97 + (n - 10))

/-- At least as many digits as the precision says, which is 1 if there is none. -/
def places (s : Specifier) (precision v : Int) : List UInt8 :=
  (paddedDigits s.radix (if precision < 0 then 1 else precision.toNat) v.natAbs).map s.digit

/-- With the flag `#` an octal number begins with a zero. -/
def digits (s : Specifier) (f : Flags) (precision v : Int) : List UInt8 :=
  if s = o ∧ f.pound = true ∧ (s.places precision v).head? ≠ some (ch '0') then
    ch '0' :: s.places precision v
  else s.places precision v

/-- Only a signed conversion has a sign. -/
def sign (s : Specifier) (f : Flags) (v : Int) : List UInt8 :=
  if s ≠ d then []
  else if v < 0 then [ch '-']
  else if f.plus then [ch '+']
  else if f.space then [ch ' ']
  else []

/-- With the flag `#` a hexadecimal number that is not zero is marked. -/
def mark (s : Specifier) (f : Flags) (v : Int) : List UInt8 :=
  if f.pound = true ∧ v ≠ 0 then
    if s = x then [ch '0', ch 'x'] else if s = X then [ch '0', ch 'X'] else []
  else []

/-- The number without padding. -/
def number (s : Specifier) (f : Flags) (precision v : Int) : List UInt8 :=
  s.sign f v ++ s.mark f v ++ s.digits f precision v

/-- What the standard asks for. A negative width is the flag `-` and the width without the sign;
a negative precision is none. The flag `0` is ignored with the flag `-` or a precision. -/
def standard (s : Specifier) (f : Flags) (width precision v : Int) : List UInt8 :=
  let pad := width.natAbs - (s.number f precision v).length
  if f.minus = true ∨ width < 0 then s.number f precision v ++ List.replicate pad (ch ' ')
  else if f.zero = true ∧ precision < 0 then
    s.sign f v ++ s.mark f v ++ List.replicate pad (ch '0') ++ s.digits f precision v
  else List.replicate pad (ch ' ') ++ s.number f precision v

/-- The call of `format_integer` in `__vprintf`. -/
def emit (s : Specifier) (v : Int) (c : Conversion) : Except Fault (List UInt8) :=
  match s with
  | d => formatSigned v c
  | o => formatInteger (UInt64.ofInt v) false false baseO c
  | u => formatInteger (UInt64.ofInt v) false false baseD c
  | x => formatInteger (UInt64.ofInt v) false false baseSmallX c
  | X => formatInteger (UInt64.ofInt v) false false baseX c

def table : Specifier → IntegerBase
  | d => baseD
  | o => baseO
  | u => baseD
  | x => baseSmallX
  | X => baseX

end Specifier

/-- A conversion stays within the buffer, and without the flag `'` and with a precision that fits
it prints what the standard asks for. -/
def Renders (s : Specifier) (f : Flags) (width precision : Int) (type : Size) (v : Int) : Prop :=
  (∃ out, s.emit v (normalise f width precision type) = .ok out) ∧
    (f.group = false → precision ≤ 63 →
      s.emit v (normalise f width precision type) = .ok (s.standard f width precision v))

/-! ### The buffer -/

variable {b : IntegerBase} {c : Conversion} {buf : List UInt8} {value n k rounds : Nat}
  {precision : Int} {group : Bool}

theorem push_ok (h : buf.length < 64) (x : UInt8) : push buf x = .ok (x :: buf) := if_pos h

theorem div_lt_pow (h : value < b.base ^ (n + 1)) : value / b.base < b.base ^ n := by
  rw [pow_succ, Nat.mul_comm] at h
  exact Nat.div_lt_of_lt_mul h

theorem separate_ok (h : buf.length < 64) : ∃ buf',
    separate b group k buf = .ok buf' ∧ buf'.length ≤ buf.length + 1 := by
  unfold separate
  split
  · rw [push_ok h]
    exact ⟨_, rfl, Nat.le_refl _⟩
  · exact ⟨buf, rfl, Nat.le_succ _⟩

theorem separate_false : separate b false k buf = .ok buf := if_neg (by simp)

/-- A digit and the separator before it are two characters. -/
theorem digitsLoop_ok (hvalue : value < b.base ^ n) (hrounds : n < rounds)
    (hroom : buf.length + 2 * n ≤ 64) : ∃ buf',
      digitsLoop b group rounds value k buf = .ok buf' ∧ buf'.length ≤ buf.length + 2 * n := by
  induction n generalizing value k buf rounds with
  | zero =>
      obtain ⟨rounds, rfl⟩ := Nat.exists_eq_succ_of_ne_zero (Nat.ne_zero_of_lt hrounds)
      have hzero : ¬ 0 < value := by
        rw [pow_zero] at hvalue
        omega
      rw [digitsLoop, if_neg hzero]
      exact ⟨buf, rfl, Nat.le_refl _⟩
  | succ n ih =>
      obtain ⟨rounds, rfl⟩ := Nat.exists_eq_succ_of_ne_zero (Nat.ne_zero_of_lt hrounds)
      rw [digitsLoop]
      by_cases hpos : 0 < value
      · rw [if_pos hpos]
        obtain ⟨buf₁, hsep, hlen⟩ := @separate_ok b buf k group (by omega)
        rw [hsep, ok_bind, push_ok (by omega), ok_bind]
        obtain ⟨buf₂, hloop, hlen₂⟩ := @ih (b.digits.getD (value % b.base) 0 :: buf₁)
          (value / b.base) (k + 1) rounds (div_lt_pow hvalue) (by omega)
          (by rw [List.length_cons]; omega)
        rw [List.length_cons] at hlen₂
        exact ⟨buf₂, hloop, by omega⟩
      · rw [if_neg hpos]
        exact ⟨buf, rfl, by omega⟩

/-- Without separators the buffer gets the digits. -/
theorem digitsLoop_eq (hb : 1 < b.base) (hvalue : value < b.base ^ n) (hrounds : n < rounds)
    (hroom : buf.length + n ≤ 64) : digitsLoop b false rounds value k buf =
      .ok ((Nat.digits b.base value).reverse.map (fun d => b.digits.getD d 0) ++ buf) := by
  induction n generalizing value k buf rounds with
  | zero =>
      obtain ⟨rounds, rfl⟩ := Nat.exists_eq_succ_of_ne_zero (Nat.ne_zero_of_lt hrounds)
      have hzero : value = 0 := by
        rw [pow_zero] at hvalue
        omega
      rw [digitsLoop, hzero, if_neg (Nat.lt_irrefl 0), Nat.digits_zero]
      rfl
  | succ n ih =>
      obtain ⟨rounds, rfl⟩ := Nat.exists_eq_succ_of_ne_zero (Nat.ne_zero_of_lt hrounds)
      rw [digitsLoop]
      by_cases hpos : 0 < value
      · rw [if_pos hpos, separate_false, ok_bind, push_ok (by omega), ok_bind,
          ih (div_lt_pow hvalue) (by omega) (by rw [List.length_cons]; omega),
          Nat.digits_def' hb hpos, List.reverse_cons, List.map_append, List.append_assoc]
        rfl
      · have hzero : value = 0 := by omega
        rw [if_neg hpos, hzero, Nat.digits_zero]
        rfl

/-- Zeros up to the precision, as far as there is room but for one character. -/
theorem zerosLoop_eq (hrounds : 64 ≤ buf.length + rounds) (hpos : 0 < rounds) :
    zerosLoop precision rounds buf =
      .ok (List.replicate (min precision 63 - buf.length).toNat (ch '0') ++ buf) := by
  induction rounds generalizing buf with
  | zero => exact absurd hpos (Nat.lt_irrefl 0)
  | succ rounds ih =>
      rw [zerosLoop]
      by_cases hmore : (buf.length : Int) < precision ∧ buf.length < 64 - 1
      · have hcount : (min precision 63 - buf.length).toNat =
            (min precision 63 - (ch '0' :: buf).length).toNat + 1 := by
          rw [List.length_cons]
          omega
        rw [if_pos hmore, push_ok (by omega), ok_bind, ih (by rw [List.length_cons]; omega) (by omega),
          hcount, List.replicate_succ', List.append_assoc]
        rfl
      · have hcount : (min precision 63 - buf.length).toNat = 0 := by omega
        rw [if_neg hmore, hcount]
        rfl

theorem toNat_lt_pow (value : UInt64) (hb : 8 ≤ b.base) : value.toNat < b.base ^ 22 :=
  calc value.toNat < 2 ^ 64 := value.toNat_lt
    _ ≤ 8 ^ 22 := by decide
    _ ≤ b.base ^ 22 := Nat.pow_le_pow_left hb 22

/-- The digits, separators and zeros fit into the buffer. -/
theorem fillBuffer_ok (hb : 8 ≤ b.base) (value : UInt64) (c : Conversion) :
    ∃ buf, fillBuffer value b c = .ok buf := by
  obtain ⟨buf, hdigits, hlen⟩ := @digitsLoop_ok b [] value.toNat 22 0 65 c.flags.group
    (toNat_lt_pow value hb) (by omega) (by simp)
  rw [List.length_nil] at hlen
  unfold fillBuffer
  rw [hdigits, ok_bind, zerosLoop_eq (by omega) (by omega), ok_bind]
  split
  · rw [push_ok (by rw [List.length_append, List.length_replicate]; omega)]
    exact ⟨_, rfl⟩
  · exact ⟨_, rfl⟩

theorem formatInteger_ok (hb : 8 ≤ b.base) (value : UInt64) (isSigned negative : Bool)
    (c : Conversion) : ∃ out, formatInteger value isSigned negative b c = .ok out := by
  obtain ⟨buf, hbuf⟩ := fillBuffer_ok hb value c
  unfold formatInteger
  rw [hbuf]
  exact ⟨_, rfl⟩

/-! ### The text -/

variable {s : Specifier} {f : Flags} {width v : Int} {type : Size}

theorem getD_table {n : Nat} (h : n < s.radix) : s.table.digits.getD n 0 = s.digit n := by
  cases s with
  | d => revert n; decide
  | o => revert n; decide
  | u => revert n; decide
  | x => revert n; decide
  | X => revert n; decide

theorem table_base (s : Specifier) : s.table.base = s.radix := by cases s <;> rfl

theorem base_eq_eight : s.table.base = 8 ↔ s = .o := by cases s <;> decide

theorem radix_ge (s : Specifier) : 8 ≤ s.radix := by cases s <;> decide

theorem natAbs_lt (hv : s.InRange v) : v.natAbs < 2 ^ 64 := by
  cases s with
  | d =>
      obtain ⟨hlow, hhigh⟩ : -2 ^ 63 ≤ v ∧ v < 2 ^ 63 := hv
      omega
  | o | u | x | X =>
      obtain ⟨hlow, hhigh⟩ : 0 ≤ v ∧ v < 2 ^ 64 := hv
      omega

theorem toNat_natAbs (hv : s.InRange v) : (UInt64.ofNat v.natAbs).toNat = v.natAbs :=
  UInt64.toNat_ofNat_of_lt' (natAbs_lt hv)

theorem ofInt_eq (h : v.natAbs < 2 ^ 64) (hpos : 0 ≤ v) : UInt64.ofInt v = UInt64.ofNat v.natAbs := by
  unfold UInt64.ofInt
  congr 1
  omega

/-- All calls of `format_integer` pass the absolute value. -/
theorem emit_eq (hv : s.InRange v) (c : Conversion) : s.emit v c =
    formatInteger (UInt64.ofNat v.natAbs) (s = .d) (v < 0) s.table c := by
  cases s with
  | d =>
      have habs : (if v < 0 then -v else v) = (v.natAbs : Int) := by
        split <;> omega
      have hlt : (v.natAbs : Int).natAbs < 2 ^ 64 := by
        rw [Int.natAbs_natCast]
        exact natAbs_lt hv
      unfold Specifier.emit formatSigned
      rw [habs, ofInt_eq hlt (Int.natCast_nonneg _), Int.natAbs_natCast]
      rfl
  | o | u | x | X =>
      unfold Specifier.emit
      rw [ofInt_eq (natAbs_lt hv) hv.1, decide_eq_false (Int.not_lt.mpr hv.1)]
      rfl

theorem normalise_flags (f : Flags) (width precision : Int) (type : Size) :
    (normalise f width precision type).flags = ⟨f.minus || decide (width < 0), f.plus,
      f.space && !f.plus, f.pound, f.zero && !f.minus && decide (precision < 0), f.group⟩ := by
  obtain ⟨minus, plus, space, pound, zero, group⟩ := f
  unfold normalise Conversion.setPrecision Conversion.setWidth Flags.clear
  by_cases hw : width < 0 <;> by_cases hp : precision < 0 <;> cases minus <;> cases plus <;>
    simp [hw, hp]

theorem normalise_width (f : Flags) (width precision : Int) (type : Size) :
    (normalise f width precision type).width = if width < 0 then toInt (-width) else width := by
  unfold normalise Conversion.setPrecision Conversion.setWidth
  by_cases hw : width < 0 <;> by_cases hp : precision < 0 <;> simp [hw, hp]

theorem normalise_rendered (f : Flags) (width precision : Int) (type : Size) :
    (normalise f width precision type).rendered = if precision < 0 then 1 else precision := by
  unfold normalise Conversion.setPrecision Conversion.rendered
  by_cases hp : precision < 0 <;> simp [hp]

/-- Zeros and digits are what the precision asks for. -/
theorem places_eq (s : Specifier) (precision v : Int) : s.places precision v =
    List.replicate ((if precision < 0 then 1 else precision.toNat) -
      (Nat.digits s.radix v.natAbs).length) (ch '0') ++
      (Nat.digits s.radix v.natAbs).reverse.map fun n => s.table.digits.getD n 0 := by
  have hradix : 1 < s.radix := Nat.lt_of_lt_of_le (by decide) (radix_ge s)
  unfold Specifier.places paddedDigits
  rw [List.map_append, List.map_replicate]
  congr 1
  refine List.map_congr_left fun n hn => (getD_table ?_).symm
  exact Nat.digits_lt_base hradix (List.mem_reverse.mp hn)

theorem length_digits_le (hv : s.InRange v) : (Nat.digits s.radix v.natAbs).length ≤ 22 := by
  have hradix : 1 < s.radix := Nat.lt_of_lt_of_le (by decide) (radix_ge s)
  rw [Nat.digits_length_le_iff hradix]
  exact calc v.natAbs < 2 ^ 64 := natAbs_lt hv
    _ ≤ 8 ^ 22 := by decide
    _ ≤ s.radix ^ 22 := Nat.pow_le_pow_left (radix_ge s) 22

theorem length_places (s : Specifier) (precision v : Int) : (s.places precision v).length =
    max (if precision < 0 then 1 else precision.toNat) (Nat.digits s.radix v.natAbs).length := by
  rw [places_eq, List.length_append, List.length_replicate, List.length_map, List.length_reverse]
  omega

theorem length_places_le (hv : s.InRange v) (hp : precision ≤ 63) :
    (s.places precision v).length ≤ 63 := by
  have hlength := length_digits_le hv
  rw [length_places]
  split <;> omega

/-- The buffer of a conversion without separators. -/
theorem fillBuffer_eq (hv : s.InRange v) (hgroup : f.group = false) (hp : precision ≤ 63) :
    fillBuffer (UInt64.ofNat v.natAbs) s.table (normalise f width precision type) =
      .ok (s.digits f precision v) := by
  have hradix : 1 < s.table.base := by
    rw [table_base]
    exact Nat.lt_of_lt_of_le (by decide) (radix_ge s)
  have hlength := length_digits_le hv
  have hdigits := @digitsLoop_eq s.table [] v.natAbs 22 0 65 hradix
    (by rw [← Nat.digits_length_le_iff hradix, table_base]; exact hlength) (by omega) (by simp)
  rw [List.append_nil, table_base] at hdigits
  unfold fillBuffer
  rw [toNat_natAbs hv, normalise_flags, normalise_rendered, hgroup, hdigits, ok_bind]
  -- The precision leaves room for the zeros.
  have hzeros : (min (if precision < 0 then 1 else precision) 63 -
      ((Nat.digits s.radix v.natAbs).reverse.map fun n => s.table.digits.getD n 0).length).toNat =
      (if precision < 0 then 1 else precision.toNat) - (Nat.digits s.radix v.natAbs).length := by
    rw [List.length_map, List.length_reverse]
    split <;> omega
  rw [zerosLoop_eq (by rw [List.length_map, List.length_reverse]; omega) (by omega), hzeros,
    ← places_eq, ok_bind]
  unfold Specifier.digits
  by_cases hzero : s = .o ∧ f.pound = true ∧ (s.places precision v).head? ≠ some (ch '0')
  · rw [if_pos ⟨hzero.2.1, base_eq_eight.mpr hzero.1, hzero.2.2⟩, if_pos hzero,
      push_ok (Nat.lt_succ_of_le (length_places_le hv hp))]
  · rw [if_neg fun h => hzero ⟨base_eq_eight.mp h.2.1, h.1, h.2.2⟩, if_neg hzero]

/-! ### Signs and padding -/

theorem signOf_eq (s : Specifier) (f : Flags) (width precision : Int) (type : Size) (v : Int) :
    (signOf (s = .d) (v < 0) (normalise f width precision type).flags).toList = s.sign f v := by
  rw [normalise_flags]
  unfold signOf Specifier.sign
  by_cases hs : s = .d
  · obtain ⟨minus, plus, space, pound, zero, group⟩ := f
    by_cases hneg : v < 0 <;> cases plus <;> cases space <;> simp [hs, hneg]
  · simp [hs]

theorem xOf_eq (hv : s.InRange v) : xOf (UInt64.ofNat v.natAbs) s.table f =
    if f.pound = true ∧ v ≠ 0 then s.table.x else 0 := by
  have hzero : UInt64.ofNat v.natAbs ≠ 0 ↔ v ≠ 0 := by
    rw [Ne, ← UInt64.toNat_inj, toNat_natAbs hv]
    exact not_congr Int.natAbs_eq_zero
  exact if_congr (and_congr_right fun _ => hzero) rfl rfl

/-- The character `x` with the zero before it. -/
theorem mark_eq (hv : s.InRange v) (f : Flags) :
    (if xOf (UInt64.ofNat v.natAbs) s.table f ≠ 0 then
      [ch '0', xOf (UInt64.ofNat v.natAbs) s.table f] else []) = s.mark f v := by
  rw [xOf_eq hv]
  unfold Specifier.mark
  by_cases hmark : f.pound = true ∧ v ≠ 0
  · rw [if_pos hmark, if_pos hmark]
    cases s <;> rfl
  · rw [if_neg hmark, if_neg hmark]
    rfl

theorem length_mark (hv : s.InRange v) (f : Flags) : ((s.mark f v).length : Int) =
    if xOf (UInt64.ofNat v.natAbs) s.table f ≠ 0 then 2 else 0 := by
  rw [← mark_eq hv]
  split <;> rfl

/-- What `format_integer` puts together. -/
def Specifier.padded (s : Specifier) (f : Flags) (precision v : Int) (left zero : Bool)
    (pad : Nat) : List UInt8 :=
  (if left = false ∧ zero = false then List.replicate pad (ch ' ') else []) ++ s.sign f v ++
    s.mark f v ++ (if zero then List.replicate pad (ch '0') else []) ++ s.digits f precision v ++
    (if left then List.replicate pad (ch ' ') else [])

/-- The `pad_cnt` for a number of a length. -/
def padding (width : Int) (length : Nat) : Nat :=
  (toInt ((if width < 0 then toInt (-width) else width) - length)).toNat

theorem length_number (s : Specifier) (f : Flags) (precision v : Int) :
    (s.number f precision v).length =
      (s.sign f v).length + (s.mark f v).length + (s.digits f precision v).length := by
  unfold Specifier.number
  rw [List.length_append, List.length_append]

/-- The text of a conversion without separators. -/
theorem emit_text (hv : s.InRange v) (hgroup : f.group = false) (hp : precision ≤ 63) :
    s.emit v (normalise f width precision type) = .ok (s.padded f precision v
      (f.minus || decide (width < 0)) (f.zero && !f.minus && decide (precision < 0))
      (padding width (s.number f precision v).length)) := by
  have hpad : toInt ((normalise f width precision type).width - (s.digits f precision v).length -
      (if xOf (UInt64.ofNat v.natAbs) s.table f ≠ 0 then 2 else 0) - (s.sign f v).length) =
      toInt ((if width < 0 then toInt (-width) else width) - (s.number f precision v).length) := by
    have hnumber := length_number s f precision v
    rw [normalise_width, ← length_mark hv f]
    congr 1
    omega
  have hx : xOf (UInt64.ofNat v.natAbs) s.table (normalise f width precision type).flags =
      xOf (UInt64.ofNat v.natAbs) s.table f := by
    rw [normalise_flags]
    rfl
  rw [emit_eq hv]
  unfold formatInteger
  rw [signOf_eq, fillBuffer_eq hv hgroup hp, ok_bind]
  dsimp only
  rw [hx, hpad, mark_eq hv, normalise_flags]
  rfl

theorem toInt_self {n : Int} (hlow : -2 ^ 31 ≤ n) (hhigh : n < 2 ^ 31) : toInt n = n := by
  refine Int.bmod_eq_of_le_mul_two ?_ ?_ <;> omega

/-- The width without its sign is an `int` but for the least one. -/
theorem padding_eq {length : Nat} (hlow : -2 ^ 31 ≤ width) (hhigh : width < 2 ^ 31)
    (hlength : length ≤ 67) : padding width length =
      if width = -2 ^ 31 ∧ length = 0 then 0 else width.natAbs - length := by
  unfold padding
  by_cases hleast : width = -2 ^ 31
  · subst hleast
    have hwidth : (if (-2 ^ 31 : Int) < 0 then toInt (- -2 ^ 31) else -2 ^ 31) = -2 ^ 31 := rfl
    rw [hwidth]
    cases length with
    | zero => rfl
    | succ length =>
        -- The difference wraps around.
        have hwrap : toInt (-2 ^ 31 - (length + 1 : Nat)) = 2 ^ 31 - (length + 1 : Nat) := by
          refine (Int.add_bmod_right _ (2 ^ 32)).symm.trans ?_
          rw [← toInt, toInt_self] <;> omega
        rw [hwrap, if_neg fun h => Nat.succ_ne_zero length h.2]
        omega
  · have hwidth : (if width < 0 then toInt (-width) else width) = width.natAbs := by
      split
      · rw [toInt_self] <;> omega
      · omega
    rw [hwidth, toInt_self (by omega) (by omega), if_neg fun h => hleast h.1]
    omega

theorem length_number_le (hv : s.InRange v) (hp : precision ≤ 63) :
    (s.number f precision v).length ≤ 67 := by
  have hplaces := length_places_le hv hp
  have hsign : (s.sign f v).length ≤ 1 := by
    unfold Specifier.sign
    repeat' split
    all_goals simp
  have hmark : (s.mark f v).length ≤ 2 := by
    unfold Specifier.mark
    repeat' split
    all_goals simp
  have hdigits : (s.digits f precision v).length ≤ 64 := by
    unfold Specifier.digits
    split
    · exact Nat.succ_le_succ hplaces
    · exact Nat.le_succ_of_le hplaces
  rw [length_number]
  omega

/-- Without a precision there is a digit. -/
theorem number_ne_nil (s : Specifier) (f : Flags) (v : Int) (hp : precision < 0) :
    0 < (s.number f precision v).length := by
  have hplaces : 0 < (s.places precision v).length := by
    rw [length_places, if_pos hp]
    omega
  have hdigits : 0 < (s.digits f precision v).length := by
    unfold Specifier.digits
    split
    · exact Nat.succ_pos _
    · exact hplaces
  rw [length_number]
  omega

/-! ### What the standard asks for -/

theorem length_padded (s : Specifier) (f : Flags) (precision v : Int) (left zero : Bool) (pad : Nat) :
    (s.padded f precision v left zero pad).length =
      (s.number f precision v).length + pad + if left = true ∧ zero = true then pad else 0 := by
  rw [length_number]
  unfold Specifier.padded
  cases left <;> cases zero <;> simp <;> omega

theorem padded_none (s : Specifier) (f : Flags) (precision v : Int) (left zero : Bool) :
    s.padded f precision v left zero 0 = s.number f precision v := by
  unfold Specifier.padded Specifier.number
  cases left <;> cases zero <;> simp

/-- The standard never pads on both sides. -/
theorem standard_eq (s : Specifier) (f : Flags) (width precision v : Int) :
    s.standard f width precision v = s.padded f precision v (f.minus || decide (width < 0))
      (f.zero && !(f.minus || decide (width < 0)) && decide (precision < 0))
      (width.natAbs - (s.number f precision v).length) := by
  unfold Specifier.standard
  by_cases hleft : f.minus = true ∨ width < 0
  · have hleft' : (f.minus || decide (width < 0)) = true := by simpa using hleft
    rw [if_pos hleft, hleft', Bool.not_true, Bool.and_false, Bool.false_and]
    unfold Specifier.padded Specifier.number
    simp
  · have hleft' : (f.minus || decide (width < 0)) = false := by simpa using hleft
    rw [if_neg hleft, hleft', Bool.not_false, Bool.and_true]
    by_cases hzero : f.zero = true ∧ precision < 0
    · have hzero' : (f.zero && decide (precision < 0)) = true := by simpa using hzero
      rw [if_pos hzero, hzero']
      unfold Specifier.padded
      simp
    · have hzero' : (f.zero && decide (precision < 0)) = false := by simpa using hzero
      rw [if_neg hzero, hzero']
      unfold Specifier.padded Specifier.number
      simp

/-- The options that go wrong: a negative width next to the flag `0`, with no flag `-` and no
precision, for a number that is shorter than the width. -/
def PaddedTwice (s : Specifier) (f : Flags) (width precision v : Int) : Prop :=
  f.zero = true ∧ f.minus = false ∧ width < 0 ∧ precision < 0 ∧
    (s.number f precision v).length < width.natAbs

theorem not_paddedTwice (hv : s.InRange v) (hlow : -2 ^ 31 ≤ width) (hhigh : width < 2 ^ 31)
    (hgroup : f.group = false) (hp : precision ≤ 63)
    (h : s.emit v (normalise f width precision type) = .ok (s.standard f width precision v)) :
    ¬ PaddedTwice s f width precision v := by
  rintro ⟨hzero, hminus, hwidth, hprecision, hshort⟩
  have hpos := number_ne_nil s f v hprecision
  rw [emit_text hv hgroup hp, standard_eq, Except.ok.injEq,
    padding_eq hlow hhigh (length_number_le hv hp), if_neg fun h => Nat.ne_of_gt hpos h.2] at h
  -- The lengths tell the texts apart.
  have hlength := congrArg List.length h
  rw [length_padded, length_padded, hzero, hminus, decide_eq_true hwidth,
    decide_eq_true hprecision] at hlength
  simp at hlength
  omega

theorem not_least (hv : s.InRange v) (hlow : -2 ^ 31 ≤ width) (hhigh : width < 2 ^ 31)
    (hgroup : f.group = false) (hp : precision ≤ 63)
    (h : s.emit v (normalise f width precision type) = .ok (s.standard f width precision v)) :
    ¬ (width = -2 ^ 31 ∧ s.number f precision v = []) := by
  rintro ⟨hwidth, hnil⟩
  have hprecision : ¬ precision < 0 := by
    intro hprecision
    have hpos := number_ne_nil s f v hprecision
    rw [hnil] at hpos
    exact absurd hpos (Nat.lt_irrefl 0)
  rw [emit_text hv hgroup hp, standard_eq, Except.ok.injEq,
    padding_eq hlow hhigh (length_number_le hv hp), hnil, if_pos ⟨hwidth, rfl⟩] at h
  have hlength := congrArg List.length h
  rw [length_padded, length_padded, hnil, decide_eq_false hprecision, hwidth] at hlength
  simp at hlength

theorem emit_standard (hv : s.InRange v) (hlow : -2 ^ 31 ≤ width) (hhigh : width < 2 ^ 31)
    (hgroup : f.group = false) (hp : precision ≤ 63) (htwice : ¬ PaddedTwice s f width precision v)
    (hleast : ¬ (width = -2 ^ 31 ∧ s.number f precision v = [])) :
    s.emit v (normalise f width precision type) = .ok (s.standard f width precision v) := by
  rw [emit_text hv hgroup hp, standard_eq, padding_eq hlow hhigh (length_number_le hv hp),
    if_neg fun h => hleast ⟨h.1, List.length_eq_zero_iff.mp h.2⟩]
  congr 1
  by_cases hboth : f.zero = true ∧ f.minus = false ∧ width < 0 ∧ precision < 0
  · obtain ⟨hzero, hminus, hwidth, hprecision⟩ := hboth
    -- No padding at all is right on both sides.
    have hnone : width.natAbs - (s.number f precision v).length = 0 := by
      refine Nat.sub_eq_zero_of_le (Nat.le_of_not_lt fun hshort => ?_)
      exact htwice ⟨hzero, hminus, hwidth, hprecision, hshort⟩
    rw [hnone, padded_none, padded_none]
  · congr 1
    by_cases hwidth : width < 0 <;> by_cases hprecision : precision < 0 <;>
      cases hzero : f.zero <;> cases hminus : f.minus <;> simp_all

/-- The buffer is large enough for every value, and the text is the one of the standard but
for a number padded twice, and for an empty one in the width that has no absolute value. One
lemma for each direction: `emit_standard` for the options that are right, `not_paddedTwice`
and `not_least` for those that are not. -/
theorem renders_iff (s : Specifier) (f : Flags) (width precision : Int) (type : Size) (v : Int)
    (hv : s.InRange v) (hlow : -2 ^ 31 ≤ width) (hhigh : width < 2 ^ 31) :
    Renders s f width precision type v ↔ (f.group = false → precision ≤ 63 →
      ¬ PaddedTwice s f width precision v ∧
      ¬ (width = -2 ^ 31 ∧ s.number f precision v = [])) := by
  have hfits : ∃ out, s.emit v (normalise f width precision type) = .ok out := by
    rw [emit_eq hv]
    exact formatInteger_ok (by rw [table_base]; exact radix_ge s) _ _ _ _
  refine (and_iff_right hfits).trans ?_
  refine imp_congr_right fun hgroup => imp_congr_right fun hp => ?_
  constructor
  · intro h
    exact ⟨not_paddedTwice hv hlow hhigh hgroup hp h, not_least hv hlow hhigh hgroup hp h⟩
  · intro h
    exact emit_standard hv hlow hhigh hgroup hp h.1 h.2

/-- `printf ("%08d", -42)`. -/
theorem renders_iff_zeros :
    Renders .d ⟨false, false, false, false, true, false⟩ 8 (-1) .int (-42) := by
  refine (renders_iff .d _ 8 (-1) .int (-42) (by decide) (by decide) (by decide)).mpr ?_
  intro _ _
  exact ⟨fun h => absurd h.2.2.1 (by decide), fun h => absurd h.1 (by decide)⟩

/-- `printf ("%0*d", -5, 42)`. -/
theorem padded_twice :
    ¬ Renders .d ⟨false, false, false, false, true, false⟩ (-5) (-1) .int 42 := by
  intro h
  exact absurd (h.2 rfl (by decide)) (by decide)

end OsTools.Stdlib.Printf

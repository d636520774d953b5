import Mathlib.Algebra.Group.Nat.Defs
import Mathlib.Data.List.Basic
import OsTools.Lib.Runs
/-!
# OsTools.Lib.Text

Texts as lists of characters, with the operations that Rust's `str` and `String` have on
them: UTF-8, white space, lines and decimal numbers.

Nothing here mentions a particular program.

The functions are those of the documentation of Rust's standard library, for the version
that the source is built with. Where this version differs from later ones, the definition
says so.
-/

namespace OsTools.Text

/-- The characters of a `str`. -/
abbrev Str := List Char

/-! ### UTF-8 -/

/-- The bytes of a text. -/
def utf8 (s : Str) : List UInt8 := s.flatMap String.utf8EncodeChar

/-- `from_utf8`. -/
def fromUtf8 (bytes : List UInt8) : Option Str :=
  bytes.toByteArray.utf8Decode?.map Array.toList

@[simp] theorem utf8_append (s t : Str) : utf8 (s ++ t) = utf8 s ++ utf8 t :=
  List.flatMap_append

/-- Every character takes at least one byte. -/
theorem length_le_utf8 (s : Str) : s.length ≤ (utf8 s).length := by
  induction s with
  | nil => exact Nat.le_refl 0
  | cons c s ih =>
      have hpos := c.utf8Size_pos
      have hlength := String.length_utf8EncodeChar c
      unfold utf8 at ih ⊢
      rw [List.flatMap_cons, List.length_append, List.length_cons]
      omega

/-- A text is read back from its bytes. -/
theorem fromUtf8_utf8 (s : Str) : fromUtf8 (utf8 s) = some s := by
  have h : (utf8 s).toByteArray.utf8Decode? = some s.toArray :=
    @List.utf8Decode?_utf8Encode s
  unfold fromUtf8
  rw [h]
  rfl

/-- What is read is a text with these bytes. -/
theorem utf8_of_fromUtf8 {bytes : List UInt8} {s : Str} (h : fromUtf8 bytes = some s) :
    utf8 s = bytes := by
  unfold fromUtf8 at h
  obtain ⟨chars, hdecode, hs⟩ := Option.map_eq_some_iff.mp h
  have hsome : bytes.toByteArray.utf8Decode?.isSome := by rw [hdecode]; rfl
  have henc := @ByteArray.utf8Encode_get_utf8Decode? bytes.toByteArray hsome
  simp only [hdecode, Option.get_some, hs] at henc
  exact List.toByteArray_inj.mp henc

theorem utf8_injective {s t : Str} (h : utf8 s = utf8 t) : s = t := by
  have hs := fromUtf8_utf8 s
  rw [h, fromUtf8_utf8] at hs
  exact (Option.some.inj hs).symm

/-! ### ASCII -/

/-- The bytes of a character that takes more than one of them are all high. -/
theorem high_of_utf8Size_ne_one {c : Char} (h : c.utf8Size ≠ 1) :
    ∀ b ∈ String.utf8EncodeChar c, 128 ≤ b := by
  have hor : ∀ x y : UInt8, 128 ≤ y → 128 ≤ x ||| y := by
    intro x y hy
    rw [UInt8.le_iff_toNat_le] at hy ⊢
    rw [UInt8.toNat_or]
    exact Nat.le_trans hy Nat.right_le_or
  intro b hb
  rcases c.utf8Size_eq with hsize | hsize | hsize | hsize
  · exact absurd hsize h
  · rw [String.utf8EncodeChar_eq_cons_cons hsize] at hb
    simp only [List.mem_cons, List.not_mem_nil, or_false] at hb
    rcases hb with rfl | rfl
    · exact hor _ _ (by decide)
    · exact hor _ _ (by decide)
  · rw [String.utf8EncodeChar_eq_cons_cons_cons hsize] at hb
    simp only [List.mem_cons, List.not_mem_nil, or_false] at hb
    rcases hb with rfl | rfl | rfl
    · exact hor _ _ (by decide)
    · exact hor _ _ (by decide)
    · exact hor _ _ (by decide)
  · rw [String.utf8EncodeChar_eq_cons_cons_cons_cons hsize] at hb
    simp only [List.mem_cons, List.not_mem_nil, or_false] at hb
    rcases hb with rfl | rfl | rfl | rfl
    · exact hor _ _ (by decide)
    · exact hor _ _ (by decide)
    · exact hor _ _ (by decide)
    · exact hor _ _ (by decide)

/-- The text in bytes of ASCII. -/
def ascii (bytes : List UInt8) : Str := bytes.map fun b => Char.ofNat b.toNat

variable {bytes : List UInt8} {b : UInt8}

theorem utf8EncodeChar_ascii (hb : b < 128) : String.utf8EncodeChar (Char.ofNat b.toNat) = [b] := by
  have hlt : b.toNat < 128 := UInt8.lt_iff_toNat_lt.mp hb
  have hval : (Char.ofNat b.toNat).val.toNat = b.toNat := by
    have hvalid : b.toNat.isValidChar := Or.inl (by omega)
    unfold Char.ofNat
    rw [dif_pos hvalid]
    rfl
  have hsize : (Char.ofNat b.toNat).utf8Size = 1 := by
    have hle : (Char.ofNat b.toNat).val ≤ 0x7f := by
      rw [UInt32.le_iff_toNat_le, hval]
      exact Nat.le_of_lt_succ hlt
    simp [Char.utf8Size, hle]
  rw [String.utf8EncodeChar_eq_singleton hsize]
  have hbyte : (Char.ofNat b.toNat).val.toUInt8 = b := by
    apply UInt8.toNat.inj
    rw [UInt32.toNat_toUInt8, hval]
    omega
  rw [hbyte]

theorem utf8_ascii (h : ∀ b ∈ bytes, b < 128) : utf8 (ascii bytes) = bytes := by
  induction bytes with
  | nil => rfl
  | cons b bytes ih =>
      have htail := ih fun x hx => h x (List.mem_cons_of_mem _ hx)
      unfold utf8 ascii at htail ⊢
      rw [List.map_cons, List.flatMap_cons, utf8EncodeChar_ascii (h b List.mem_cons_self), htail]
      rfl

/-- ASCII is UTF-8. -/
theorem fromUtf8_ascii (h : ∀ b ∈ bytes, b < 128) : fromUtf8 bytes = some (ascii bytes) := by
  have hdecode := fromUtf8_utf8 (ascii bytes)
  rwa [utf8_ascii h] at hdecode

/-- One byte of a longer character is not the only one that is not ASCII. -/
theorem high_of_utf8_append {s : Str} (h : utf8 s = bytes ++ [b]) (hb : 128 ≤ b) :
    ∃ x ∈ bytes, 128 ≤ x := by
  rcases List.eq_nil_or_concat' s with rfl | ⟨s, c, rfl⟩
  · simp [utf8] at h
  have hlast : utf8 [c] = String.utf8EncodeChar c := by simp [utf8]
  rw [utf8_append, hlast] at h
  by_cases hsize : c.utf8Size = 1
  · -- The last character is one byte, which is less than 128.
    rw [String.utf8EncodeChar_eq_singleton hsize] at h
    have hbyte := List.append_inj_right' h rfl
    rw [List.singleton_inj] at hbyte
    have hle : c.val ≤ 0x7f := Char.utf8Size_eq_one_iff.mp hsize
    rw [UInt32.le_iff_toNat_le] at hle
    rw [← hbyte, UInt8.le_iff_toNat_le, UInt32.toNat_toUInt8] at hb
    have h127 : (0x7f : UInt32).toNat = 127 := rfl
    have h128 : (128 : UInt8).toNat = 128 := rfl
    omega
  · -- The byte before the last one is one of the character, too.
    have hhigh := high_of_utf8Size_ne_one hsize
    have hlength := String.length_utf8EncodeChar c
    have hpos := c.utf8Size_pos
    cases henc : String.utf8EncodeChar c with
    | nil =>
        rw [henc, List.length_nil] at hlength
        omega
    | cons x enc =>
        rcases List.eq_nil_or_concat' enc with rfl | ⟨enc, y, rfl⟩
        · rw [henc, List.length_singleton] at hlength
          omega
        · rw [henc, ← List.cons_append, ← List.append_assoc] at h
          have hbytes := List.append_inj_left' h rfl
          exact ⟨x, by rw [← hbytes]; simp, hhigh x (by rw [henc]; exact List.mem_cons_self)⟩

/-- ASCII that is followed by one other byte is no UTF-8. -/
theorem fromUtf8_cut (h : ∀ x ∈ bytes, x < 128) (hb : 128 ≤ b) : fromUtf8 (bytes ++ [b]) = none := by
  cases hdecode : fromUtf8 (bytes ++ [b]) with
  | none => rfl
  | some s =>
      obtain ⟨x, hx, hhigh⟩ := high_of_utf8_append (utf8_of_fromUtf8 hdecode) hb
      have hlow := h x hx
      rw [UInt8.lt_iff_toNat_lt] at hlow
      rw [UInt8.le_iff_toNat_le] at hhigh
      omega

/-! ### White space -/

/-- `char::is_whitespace`: the property `White_Space` of Unicode. -/
def isWhitespace (c : Char) : Bool :=
  let n := c.toNat
  (9 ≤ n ∧ n ≤ 13) ∨ n = 0x20 ∨ n = 0x85 ∨ n = 0xa0 ∨ n = 0x1680 ∨ (0x2000 ≤ n ∧ n ≤ 0x200a) ∨
    n = 0x2028 ∨ n = 0x2029 ∨ n = 0x202f ∨ n = 0x205f ∨ n = 0x3000

/-- `str::split_whitespace`. -/
def splitWhitespace (s : Str) : List Str := runs (fun c => !isWhitespace c) s

/-- `str::trim`. -/
def trim (s : Str) : Str :=
  ((s.dropWhile isWhitespace).reverse.dropWhile isWhitespace).reverse

variable {u v : Str}

theorem dropWhile_isWhitespace_append (hu : u ≠ [])
    (hhead : ∀ c ∈ u.head?, isWhitespace c = false) :
    (u ++ v).dropWhile isWhitespace = u ++ v := by
  cases u with
  | nil => exact absurd rfl hu
  | cons c u =>
      have hc : isWhitespace c = false := hhead c rfl
      rw [List.cons_append, List.dropWhile_cons_of_neg (by simp [hc])]

/-- What has no white space at its ends is not trimmed, and what is behind it at its end only. -/
theorem trim_append (hu : u ≠ []) (hhead : ∀ c ∈ u.head?, isWhitespace c = false)
    (hlast : ∀ c ∈ u.getLast?, isWhitespace c = false) (v : Str) :
    ∃ kept dropped, v = kept ++ dropped ∧ trim (u ++ v) = u ++ kept := by
  refine ⟨(v.reverse.dropWhile isWhitespace).reverse, (v.reverse.takeWhile isWhitespace).reverse,
    ?_, ?_⟩
  · rw [← List.reverse_append, List.takeWhile_append_dropWhile, List.reverse_reverse]
  · have hback := dropWhile_isWhitespace_append (v := []) (u := u.reverse) (by simpa using hu)
      (by simpa using hlast)
    rw [List.append_nil] at hback
    unfold trim
    rw [dropWhile_isWhitespace_append hu hhead, List.reverse_append, List.dropWhile_append, hback]
    cases v.reverse.dropWhile isWhitespace with
    | nil => simp
    | cons c rest => simp

/-! ### Lines -/

/-- A line without the carriage return at its end. -/
def stripReturn (line : Str) : Str :=
  if line.getLast? = some '\r' then line.dropLast else line

/-- `str::split_terminator`, at line feeds: what follows the last one is a piece only if there
is something. -/
def splitTerminator (s : Str) : List Str :=
  let pieces := s.splitOnP (· == '\n')
  let last := pieces.getLastD []
  pieces.dropLast ++ if last = [] then [] else [last]

/-- `str::lines` of Rust 1.62.1: a carriage return at the end of a line is left out, also where
the text ends without a line feed. -/
def lines (s : Str) : List Str := (splitTerminator s).map stripReturn

theorem length_splitOnP_le (p : Char → Bool) (s : Str) : (s.splitOnP p).length ≤ s.length + 1 := by
  induction s with
  | nil => simp
  | cons c s ih =>
      rw [List.splitOnP_cons_eq_if_modifyHead, List.length_cons]
      split
      · simpa using ih
      · rw [List.length_modifyHead]
        omega

/-- A text has at most one more line than characters. -/
theorem length_lines_le (s : Str) : (lines s).length ≤ s.length + 1 := by
  have hpieces := length_splitOnP_le (· == '\n') s
  unfold lines splitTerminator
  dsimp only
  rw [List.length_map, List.length_append, List.length_dropLast]
  split
  · simp only [List.length_nil]
    omega
  · rename_i hlast
    have hne : s.splitOnP (· == '\n') ≠ [] := List.splitOnP_ne_nil _ s
    have hpos := List.length_pos_iff.mpr hne
    simp only [List.length_singleton]
    omega

/-- A text without a line feed, and without a carriage return at its end, is one line. -/
theorem lines_eq_singleton {s : Str} (hs : s ≠ []) (hfeed : '\n' ∉ s)
    (hreturn : s.getLast? ≠ some '\r') : lines s = [s] := by
  have hpieces : s.splitOnP (· == '\n') = [s] :=
    List.splitOnP_eq_singleton fun c hc => by
      rw [beq_eq_false_iff_ne]
      rintro rfl
      exact hfeed hc
  unfold lines splitTerminator stripReturn
  rw [hpieces]
  simp [hs, hreturn]

/-- Both ends of lines, and a carriage return at the end of the text. -/
example : lines "foo\r\n\nbar\r".toList = ["foo".toList, [], "bar".toList] := by decide

/-! ### Decimal numbers -/

/-- The digits of a number, as `{}` writes them. -/
def decimal (n : Nat) : Str := Nat.toDigits 10 n

/-- The value of a sequence of digits. -/
def digitsValue (s : Str) : Option Nat :=
  s.foldlM (fun n c => if c.isDigit then some (10 * n + (c.toNat - '0'.toNat)) else none) 0

/-- `str::parse::<u64>`: digits, which a plus sign may precede. -/
def parseU64 (s : Str) : Option Nat :=
  let digits := if s.head? = some '+' then s.tail else s
  if digits = [] then none
  else (digitsValue digits).filter fun n => decide (n < 2 ^ 64)

theorem parseU64_lt {s : Str} {n : Nat} (h : parseU64 s = some n) : n < 2 ^ 64 := by
  unfold parseU64 at h
  generalize (if s.head? = some '+' then s.tail else s) = digits at h
  dsimp only at h
  split at h
  · simp at h
  · rw [Option.filter_eq_some_iff] at h
    simpa using h.2

end OsTools.Text

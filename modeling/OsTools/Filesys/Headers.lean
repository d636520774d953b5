import OsTools.Filesys.Ustar
/-!
# OsTools.Filesys.Headers

What may be relied on about the header of a file. One that `ustar_make_header` has made is read
back (`made_header_read_back`). Whatever the bytes of a block are, `ustar_parse_header` stays
within the block, and a file that it reports has a safe name and a size that is what its field
says (`ustarParseHeader_accepted`).

`parse_octal_field` computes modulo `2 ^ 32`. Its test for overflow is exact: a field is read
just when its number is an `unsigned long` (`parseOctalField_spec`).

For the untrusted direction each check of `ustar_parse_header` is a combinator (`checks_ite`): the
parser returns, and what it accepts has passed the checks before. `octalLoop_spec` is the one
induction, over the characters of a field; its invariant is that `value` is the number of the digits
read so far as long as that is an `unsigned long`, which the test for overflow sees to.
-/

namespace OsTools.Filesys.Ustar

open OsTools.CString OsTools.Kernel

/-- `INT_MAX`. -/
def INT_MAX : Nat := 2 ^ 31 - 1

/-! ### Octal fields -/

/-- The bytes of a field. -/
def bytes (header : Mem) (f : Field) : List UInt8 := (ptr header f).take f.size

def isOctal (c : UInt8) : Bool := 48 ≤ c ∧ c ≤ 55

/-- The digits at the front of a field. -/
def fieldDigits (s : List UInt8) : List Nat := (s.takeWhile isOctal).map fun c => c.toNat - 48

/-- The number that the digits stand for. -/
def fieldValue (s : List UInt8) : Nat := (fieldDigits s).foldl (shiftIn 8) 0

/-- A space or a null follows the digits. -/
def Ended (s : List UInt8) : Prop := ∃ c ∈ (s.dropWhile isOctal).head?, c = 32 ∨ c = 0

/-- There are digits, and they end. -/
def WellFormed (s : List UInt8) : Prop := fieldDigits s ≠ [] ∧ Ended s

variable {s : List UInt8} {c : UInt8} {n ofs value : Nat}

theorem fieldDigits_cons (hc : isOctal c = true) :
    fieldDigits (c :: s) = (c.toNat - 48) :: fieldDigits s := by
  unfold fieldDigits
  rw [List.takeWhile_cons_of_pos hc, List.map_cons]

theorem fieldDigits_stop (hc : ¬ isOctal c = true) : fieldDigits (c :: s) = [] := by
  unfold fieldDigits
  rw [List.takeWhile_cons_of_neg hc, List.map_nil]

theorem ended_cons (hc : isOctal c = true) : Ended (c :: s) ↔ Ended s := by
  unfold Ended
  rw [List.dropWhile_cons_of_pos hc]

theorem ended_stop (hc : ¬ isOctal c = true) : Ended (c :: s) ↔ c = 32 ∨ c = 0 := by
  unfold Ended
  rw [List.dropWhile_cons_of_neg hc]
  simp

/-- One more digit makes a number too large, and it stays so. -/
theorem large_foldl (hroom : ULONG_MAX / 8 < value) (d : Nat) (ds : List Nat) :
    2 ^ 32 ≤ ds.foldl (shiftIn 8) (shiftIn 8 value d) := by
  have hle := le_foldl_shiftIn (by decide : 0 < 8) ds (shiftIn 8 value d)
  unfold ULONG_MAX at hroom
  refine Nat.le_trans ?_ hle
  unfold shiftIn
  omega

theorem shiftIn_fits {d : Nat} (hroom : ¬ ULONG_MAX / 8 < value) (hd : d < 8) :
    shiftIn 8 value d < 2 ^ 32 := by
  unfold ULONG_MAX at hroom
  unfold shiftIn
  omega

/-- The loop of `parse_octal_field` from any character on: the value is that of the digits still
to come behind `value`, if it is an `unsigned long`. -/
theorem octalLoop_spec (hvalue : value < 2 ^ 32) (hn : n ≤ s.length) :
    ∃ r, octalLoop n ofs s value = .ok r ∧ ∀ v, r = some v ↔
      0 < ofs + (fieldDigits (s.take n)).length ∧ Ended (s.take n) ∧
        (fieldDigits (s.take n)).foldl (shiftIn 8) value = v ∧ v < 2 ^ 32 := by
  induction n generalizing ofs s value with
  | zero =>
      refine ⟨none, rfl, fun v => ?_⟩
      simp [Ended]
  | succ n ih =>
      cases s with
      | nil => exact absurd hn (by simp)
      | cons c s =>
          rw [octalLoop, List.take_succ_cons]
          by_cases hc : isOctal c = true
          · have hdigit : 48 ≤ c ∧ c ≤ 55 := by simpa [isOctal] using hc
            have hlow := UInt8.le_iff_toNat_le.mp hdigit.1
            have hhigh := UInt8.le_iff_toNat_le.mp hdigit.2
            simp only [UInt8.reduceToNat] at hlow hhigh
            rw [if_pos hdigit, fieldDigits_cons hc, ended_cons hc, List.foldl_cons,
              List.length_cons]
            by_cases hroom : ULONG_MAX / 8 < value
            · rw [if_pos hroom]
              refine ⟨none, rfl, fun v => ⟨fun h => absurd h (by simp), fun h => ?_⟩⟩
              obtain ⟨-, -, hv, hlt⟩ := h
              have hlarge := large_foldl hroom (c.toNat - 48) (fieldDigits (s.take n))
              omega
            · have hsmall := @shiftIn_fits value (c.toNat - 48) hroom (by omega)
              have hnext : (c.toNat - 48 + value * 8) % 2 ^ 32 = shiftIn 8 value (c.toNat - 48) :=
                Nat.mod_eq_of_lt hsmall
              rw [if_neg hroom, hnext]
              obtain ⟨r, hr, hspec⟩ := @ih s (ofs + 1) _ hsmall (by simpa using hn)
              refine ⟨r, hr, fun v => ?_⟩
              rw [hspec v, Nat.add_assoc, Nat.add_comm 1]
          · have hdigit : ¬ (48 ≤ c ∧ c ≤ 55) := by simpa [isOctal] using hc
            rw [if_neg hdigit, fieldDigits_stop hc, ended_stop hc]
            by_cases hend : c = 32 ∨ c = 0
            · rw [if_pos hend]
              refine ⟨_, rfl, fun v => ?_⟩
              by_cases hofs : 0 < ofs
              · simp [hofs, hend]
                intro hv
                omega
              · simp [hofs]
            · rw [if_neg hend]
              exact ⟨none, rfl, fun v => by simp [hend]⟩

/-- The pointer to a field has all bytes of the block that follow. -/
theorem length_ptr (header : Mem) (f : Field) :
    (ptr header f).length = USTAR_HEADER_SIZE - f.offset := by
  unfold ptr
  rw [List.length_map, List.length_range]

/-- **`parse_octal_field` is exact.** It reads a field of the header just when the field is well
formed and its number is an `unsigned long`, and it reads that number. -/
theorem parseOctalField_spec (header : Mem) {f : Field}
    (hf : f.offset + f.size ≤ USTAR_HEADER_SIZE) :
    ∃ r, parseOctalField header f = .ok r ∧ ∀ v, r = some v ↔
      WellFormed (bytes header f) ∧ fieldValue (bytes header f) = v ∧ v < 2 ^ 32 := by
  have hlength : f.size ≤ (ptr header f).length := by
    rw [length_ptr]
    omega
  obtain ⟨r, hr, hspec⟩ := @octalLoop_spec (ptr header f) f.size 0 0 (by decide) hlength
  refine ⟨r, hr, fun v => ?_⟩
  rw [hspec v, Nat.zero_add, List.length_pos_iff, ← and_assoc]
  rfl

/-! ### Names -/

theorem not_antisocial_stripped (s : List UInt8) : ¬ Antisocial (stripped s) := by
  unfold stripped
  dsimp only
  split
  · decide
  · exact not_antisocial_dropPrefixes s

theorem stripped_ne_dots (s : List UInt8) : stripped s ≠ [46, 46] := by
  unfold stripped
  dsimp only
  split
  · decide
  · rename_i hdots
    exact fun h => hdots (Or.inr h)

/-- The name field is a string if its last byte is null. -/
theorem name_string {header : Mem} (h : header (name.offset + name.size - 1) = 0) :
    ∃ s q, ptr header name = s ++ 0 :: q ∧ 0 ∉ s := by
  have hmem : 0 ∈ ptr header name := by
    unfold ptr
    exact List.mem_map.mpr ⟨99, List.mem_range.mpr (by decide), h⟩
  exact List.eq_append_cons_of_mem hmem

/-! ### Accepted headers -/

/-- What holds of a file that `ustar_parse_header` reports. -/
structure Accepted (header : Mem) (parsed : Parsed) : Prop where
  /-- The name is a string, not empty, within the directory where it is extracted. -/
  name : ∃ s q, parsed.fileName = some (s ++ 0 :: q) ∧ 0 ∉ s ∧ s ≠ [] ∧ ¬ Antisocial s ∧
    s ≠ [46, 46]
  type : header typeflag.offset = parsed.type.flag
  /-- The size of a regular file is the number in its field. -/
  regular : parsed.type = .regular →
    WellFormed (bytes header size) ∧ parsed.size = fieldValue (bytes header size)
  /-- That of a directory is 0. -/
  directory : parsed.type = .directory → parsed.size = 0
  int : 0 ≤ parsed.size ∧ parsed.size ≤ INT_MAX
  chksum : WellFormed (bytes header chksum) ∧
    fieldValue (bytes header chksum) = calculateChksum header

/-- What `strip_antisocial_prefixes` makes of the name field. -/
theorem strip_name {header : Mem} (h : header (name.offset + name.size - 1) = 0) :
    ∃ s q, stripAntisocialPrefixes (ptr header name) = .ok (s ++ 0 :: q) ∧ 0 ∉ s ∧ s ≠ [] ∧
      ¬ Antisocial s ∧ s ≠ [46, 46] := by
  obtain ⟨s, p, hptr, hs⟩ := name_string h
  obtain ⟨q, hstrip⟩ := stripAntisocialPrefixes_string (p := p) hs
  rw [hptr]
  exact ⟨stripped s, q, hstrip, not_mem_stripped hs, stripped_ne_nil s,
    not_antisocial_stripped s, stripped_ne_dots s⟩

/-- The computation returns, and accepts only what is in order. -/
def Checks (header : Mem) (x : Except Stop (Except String Parsed)) : Prop :=
  ∃ r, x = .ok r ∧ ∀ parsed, r = .ok parsed → parsed.type ≠ .eof → Accepted header parsed

theorem checks_error (header : Mem) (msg : String) : Checks header (.ok (.error msg)) :=
  ⟨_, rfl, nofun⟩

/-- A check of the header, and what follows it. -/
theorem checks_ite {header : Mem} {x : Except Stop (Except String Parsed)} {p : Prop} [Decidable p]
    {msg : String} (h : ¬ p → Checks header x) :
    Checks header (if p then .ok (.error msg) else x) := by
  by_cases hp : p
  · rw [if_pos hp]
    exact checks_error header msg
  · rw [if_neg hp]
    exact h hp

theorem checks_ok {header : Mem} {parsed : Parsed} (h : parsed.type ≠ .eof → Accepted header parsed) :
    Checks header (.ok (.ok parsed)) := by
  refine ⟨_, rfl, fun parsed' heq htype => ?_⟩
  cases heq
  exact h htype

/-- **Untrusted headers.** `ustar_parse_header` returns for every block, without a read
outside of it, and accepts only what is in order. The theorem follows the checks of the
function; each one that passes says something of the header, and what they say together is the
conclusion. -/
theorem ustarParseHeader_accepted (header : Mem) : ∃ r, ustarParseHeader header = .ok r ∧
    ∀ parsed, r = .ok parsed → parsed.type ≠ .eof → Accepted header parsed := by
  obtain ⟨isUstar, hmagic⟩ := memcmp_isSome (p := ptr header magic)
    (q := [117, 115, 116, 97, 114, 0]) (by rw [length_ptr]; decide)
  obtain ⟨sum, hsum, hsumSpec⟩ := parseOctalField_spec header (f := chksum) (by decide)
  obtain ⟨field, hfield, hfieldSpec⟩ := parseOctalField_spec header (f := size) (by decide)
  change Checks header (ustarParseHeader header)
  unfold ustarParseHeader
  by_cases hzeros : isAllZeros header USTAR_HEADER_SIZE = true
  · rw [if_pos hzeros]
    exact checks_ok fun htype => absurd rfl htype
  rw [if_neg hzeros, hmagic, hsum, hfield]
  dsimp only [readable]
  rw [ok_bind, ok_bind]
  -- the checks one after the other, as they stand in the source
  refine checks_ite fun _ => checks_ite fun _ => ?_
  cases sum with
  | none => exact checks_error header _
  | some sum =>
      refine checks_ite fun hchksum => checks_ite fun hname => checks_ite fun hflag => ?_
      rw [ne_eq, Decidable.not_not] at hchksum
      rw [not_or, Decidable.not_not, Decidable.not_not] at hname
      rw [not_and_or, Decidable.not_not, Decidable.not_not] at hflag
      obtain ⟨hsumForm, hsumValue, -⟩ := (hsumSpec sum).mp rfl
      obtain ⟨s, q, hstrip, hsafe⟩ := strip_name hname.1
      by_cases hregular : header typeflag.offset = UstarType.regular.flag
      · rw [if_pos hregular, ok_bind]
        cases field with
        | none => exact checks_error header _
        | some fileSize =>
            refine checks_ite fun hlarge => ?_
            rw [hstrip, ok_bind]
            obtain ⟨hform, hvalue, -⟩ := (hfieldSpec fileSize).mp rfl
            refine checks_ok fun _ => ⟨⟨s, q, rfl, hsafe⟩, hregular, fun _ => ⟨hform, ?_⟩, nofun,
              ?_, hsumForm, hsumValue.trans hchksum⟩
            · exact congrArg Nat.cast hvalue.symm
            · dsimp only
              unfold INT_MAX
              omega
      · rw [if_neg hregular, hstrip, ok_bind]
        exact checks_ok fun _ => ⟨⟨s, q, rfl, hsafe⟩, hflag.resolve_left hregular, nofun,
          fun _ => rfl, ⟨Int.le_refl 0, Int.natCast_nonneg INT_MAX⟩, hsumForm,
          hsumValue.trans hchksum⟩

/-- The size field of a directory is not read: this one says 1. -/
theorem directory_size_unread : ∃ s,
    ustarParseHeader (compose [97] .directory 1) = .ok (.ok ⟨some s, .directory, 0⟩) ∧
      WellFormed (bytes (compose [97] .directory 1) size) ∧
      fieldValue (bytes (compose [97] .directory 1) size) = 1 := by
  obtain ⟨q, hparse⟩ := @ustarParseHeader_compose [97] .directory 1 (by decide) (by decide)
    (by decide) (by decide) (by decide)
  have hsize := (@compose_describes [97] .directory 1 (by decide)).size
  obtain ⟨r, hr, hspec⟩ := parseOctalField_spec (compose [97] .directory 1) (f := size) (by decide)
  rw [hr] at hsize
  obtain ⟨hform, hvalue, -⟩ := (hspec 1).mp (Except.ok.inj hsize)
  exact ⟨_, hparse, hform, hvalue⟩

/-! ### Headers that were made -/

/-- **Round trip.** `ustar_make_header` fails just when the stripped name is too long, and
`ustar_parse_header` finds in the header what it was made from. The fields that are written
are apart from each other, and the octal digits of a number give it back. -/
theorem made_header_read_back {fileName : List UInt8} {type : UstarType} {fileSize : Int}
    (hname : 0 ∉ fileName) (htype : type ≠ .eof) (h₀ : 0 ≤ fileSize) (h₁ : fileSize ≤ INT_MAX) :
    ∃ p made, stripAntisocialPrefixes (fileName ++ [0]) = .ok p ∧
      ustarMakeHeader fileName type fileSize = .ok made ∧
      (made = none ↔ 99 < (chars p).length) ∧
      ∀ header, made = some header → ∃ q, ustarParseHeader header =
        .ok (.ok ⟨some (chars p ++ 0 :: q), type, if type = .regular then fileSize else 0⟩) := by
  obtain ⟨rest, hstrip⟩ := stripAntisocialPrefixes_string (p := []) hname
  refine ⟨_, _, hstrip, ustarMakeHeader_eq hname htype, ?_, fun header hmade => ?_⟩
  · rw [chars_string (not_mem_stripped hname)]
    split
    · simp_all
    · simp_all
  · rw [chars_string (not_mem_stripped hname)]
    by_cases hlong : 99 < (stripped fileName).length
    · rw [if_pos hlong] at hmade
      cases hmade
    · rw [if_neg hlong] at hmade
      cases hmade
      unfold INT_MAX at h₁
      exact ustarParseHeader_compose hname (by omega) htype h₀ (by omega)

/-- `../a` is archived as `a`, with the largest size there is. -/
theorem made_header_read_back_dots : ∃ p made,
    stripAntisocialPrefixes ([46, 46, 47, 97] ++ [0]) = .ok p ∧
      ustarMakeHeader [46, 46, 47, 97] .regular 2147483647 = .ok made ∧
      (made = none ↔ 99 < (chars p).length) ∧
      ∀ header, made = some header → ∃ q, ustarParseHeader header =
        .ok (.ok ⟨some (chars p ++ 0 :: q), .regular, 2147483647⟩) :=
  made_header_read_back (by decide) (by decide) (by decide) (by decide)

end OsTools.Filesys.Ustar

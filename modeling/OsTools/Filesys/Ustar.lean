import OsTools.Filesys.Inode
import OsTools.Lib.CString
import OsTools.Lib.Digits
/-!
# OsTools.Filesys.Ustar

The headers of tar archives in the ustar format (`lib/ustar.c`): `ustar_make_header` writes
one and `ustar_parse_header` reads it.

A header is a block of 512 bytes. A pointer into it is what is left of the block, so that a
read behind the block shows: it is a fault.

## Proof shape

A header is made by a list of writes, and that each of them keeps to its own field (`writes_fit`)
makes every field readable at its place, whatever the order (`ptr_eq`). The checksum is the sum
with its own field as blanks, so that writing it does not change it (`calculateChksum_write`).
The checks of `ustar_parse_header` are then evaluated one after the other on a header of which
`Describes` says what each of them will find.

Stripping is a loop that makes the name shorter by one of three prefixes. `dropPrefixes` is the
same on the characters of a string, and recursion on these shows that it ends and that a
stripped name has nothing more to strip.
-/

namespace OsTools.Filesys

open OsTools.CString OsTools.Kernel

namespace Ustar

/-- `USTAR_HEADER_SIZE`. -/
def USTAR_HEADER_SIZE : Nat := 512

/-- `enum ustar_type`. -/
inductive UstarType
  | regular
  | directory
  | eof
  deriving DecidableEq

/-- The byte that stands for a type in a header. -/
def UstarType.flag : UstarType → UInt8
  | .regular => 48
  | .directory => 53
  | .eof => 255

/-- A field of `struct ustar_header`. -/
structure Field where
  offset : Nat
  size : Nat
  deriving DecidableEq

/-! ### `struct ustar_header` -/

def name : Field := ⟨0, 100⟩
def mode : Field := ⟨100, 8⟩
def uid : Field := ⟨108, 8⟩
def gid : Field := ⟨116, 8⟩
def size : Field := ⟨124, 12⟩
def mtime : Field := ⟨136, 12⟩
def chksum : Field := ⟨148, 8⟩
def typeflag : Field := ⟨156, 1⟩
def magic : Field := ⟨257, 6⟩
def version : Field := ⟨263, 2⟩
def uname : Field := ⟨265, 32⟩
def gname : Field := ⟨297, 32⟩
def namePrefix : Field := ⟨345, 155⟩

/-- The pointer to a field. -/
def ptr (header : Mem) (f : Field) : List UInt8 :=
  (List.range (USTAR_HEADER_SIZE - f.offset)).map fun i => header (f.offset + i)

/-- The bytes are written to a field. -/
def write (header : Mem) (w : Field × List UInt8) : Mem :=
  header.blit w.1.offset w.2.length fun i => w.2.getD i 0

/-- What `strlcpy` and `snprintf` write of the characters into a field. -/
def text (f : Field) (s : List UInt8) : Field × List UInt8 := (f, s.take (f.size - 1) ++ [0])

/-- The character of a digit. -/
def digitChar (d : Nat) : UInt8 := UInt8.ofNat (48 + d)

/-- `%0⟨width⟩o`. -/
def octal (width v : Nat) : List UInt8 := (paddedDigits 8 width v).map digitChar

/-- `calculate_chksum`: the sum of the bytes, those of the checksum taken as blanks. -/
def calculateChksum (header : Mem) : Nat :=
  ((List.range USTAR_HEADER_SIZE).map fun i =>
    if chksum.offset ≤ i ∧ i < chksum.offset + chksum.size then 32 else (header i).toNat).sum

/-- What is read, if it is not outside of its object. -/
def readable {α : Type} : Option α → Except Stop α
  | some a => .ok a
  | none => .error .fault

/-! ### Stripping names -/

/-- The condition of the loop in `strip_antisocial_prefixes`. -/
def antisocial (p : List UInt8) : Except Stop Bool := do
  if (← readable p.head?) = 47 then .ok true
  else if ← readable (memcmp p [46, 47]) then .ok true
  else readable (memcmp p [46, 46, 47])

/-- The loop of `strip_antisocial_prefixes`: a pass makes the string shorter. -/
def stripLoop : Nat → List UInt8 → Except Stop (List UInt8)
  | 0, _ => .error .fault
  | fuel + 1, p => do
      if ← antisocial p then
        match ← readable (strchr 47 p) with
        | none => .error .fault
        | some q => stripLoop fuel q.tail
      else .ok p

/-- `strip_antisocial_prefixes`. -/
def stripAntisocialPrefixes (p : List UInt8) : Except Stop (List UInt8) := do
  let p ← stripLoop p.length p
  if (← readable p.head?) = 0 then .ok [46, 0]
  else if ← readable (strcmp p [46, 46]) then .ok [46, 0]
  else .ok p

/-! ### Making a header -/

/-- What `ustar_make_header` writes before the checksum, in this order. -/
def fields (fileName : List UInt8) (type : UstarType) (fileSize : Int) : List (Field × List UInt8) :=
  [text name fileName,
    text mode (octal 7 (if type = .regular then 0o644 else 0o755)),
    text uid [48, 48, 48, 48, 48, 48, 48],
    text gid [48, 48, 48, 48, 48, 48, 48],
    text size (octal 11 (toUInt32 fileSize)),
    text mtime (octal 11 1136102400),
    (typeflag, [type.flag]),
    text magic [117, 115, 116, 97, 114],
    (version, [48, 48]),
    text gname [114, 111, 111, 116],
    text uname [114, 111, 111, 116]]

/-- The header of a file with the stripped name. -/
def compose (fileName : List UInt8) (type : UstarType) (fileSize : Int) : Mem :=
  let header := (fields fileName type fileSize).foldl write fun _ => 0
  write header (text chksum (octal 7 (calculateChksum header)))

/-- `ustar_make_header`: the header, unless the name is too long. -/
def ustarMakeHeader (fileName : List UInt8) (type : UstarType) (fileSize : Int) :
    Except Stop (Option Mem) := do
  if type = .eof then .error .assertion
  else
    let p ← stripAntisocialPrefixes (fileName ++ [0])
    if 99 < (← readable (strlen p)) then .ok none
    else .ok (some (compose (chars p) type fileSize))

/-! ### Parsing a header -/

/-- `ULONG_MAX`. -/
def ULONG_MAX : Nat := 2 ^ 32 - 1

/-- The loop of `parse_octal_field`: `ofs` characters have been read, `n` are left. -/
def octalLoop : Nat → Nat → List UInt8 → Nat → Except Stop (Option Nat)
  | 0, _, _, _ => .ok none
  | _ + 1, _, [], _ => .error .fault
  | n + 1, ofs, c :: s, value =>
      if 48 ≤ c ∧ c ≤ 55 then
        if ULONG_MAX / 8 < value then .ok none
        else octalLoop n (ofs + 1) s ((c.toNat - 48 + value * 8) % 2 ^ 32)
      else if c = 32 ∨ c = 0 then .ok (if 0 < ofs then some value else none)
      else .ok none

/-- `parse_octal_field`: the value, unless the field is malformed. -/
def parseOctalField (header : Mem) (f : Field) : Except Stop (Option Nat) :=
  octalLoop f.size 0 (ptr header f) 0

/-- `is_all_zeros`. -/
def isAllZeros (block : Mem) (cnt : Nat) : Bool := (List.range cnt).all fun i => block i = 0

/-- What `ustar_parse_header` stores: the name is a pointer, null at the end of the archive. -/
structure Parsed where
  fileName : Option (List UInt8)
  type : UstarType
  size : Int
  deriving DecidableEq

/-- `ustar_parse_header`: what it stores, or the error message. -/
def ustarParseHeader (header : Mem) : Except Stop (Except String Parsed) := do
  if isAllZeros header USTAR_HEADER_SIZE then .ok (.ok ⟨none, .eof, 0⟩)
  else if ¬ (← readable (memcmp (ptr header magic) [117, 115, 116, 97, 114, 0])) then
    .ok (.error "not a ustar archive")
  else if header version.offset ≠ 48 ∨ header (version.offset + 1) ≠ 48 then
    .ok (.error "invalid ustar version")
  else
    match ← parseOctalField header chksum with
    | none => .ok (.error "corrupt chksum field")
    | some sum =>
        if sum ≠ calculateChksum header then .ok (.error "checksum mismatch")
        else if header (name.offset + name.size - 1) ≠ 0 ∨ header namePrefix.offset ≠ 0 then
          .ok (.error "file name too long")
        else if header typeflag.offset ≠ UstarType.regular.flag ∧
            header typeflag.offset ≠ UstarType.directory.flag then
          .ok (.error "unimplemented file type")
        else if header typeflag.offset = UstarType.regular.flag then
          match ← parseOctalField header size with
          | none => .ok (.error "corrupt file size field")
          | some fileSize =>
              if 2 ^ 31 - 1 < fileSize then .ok (.error "file too large")
              else
                let p ← stripAntisocialPrefixes (ptr header name)
                .ok (.ok ⟨some p, .regular, fileSize⟩)
        else
          let p ← stripAntisocialPrefixes (ptr header name)
          .ok (.ok ⟨some p, .directory, 0⟩)

/-! ### What stripping does -/

/-- A name without the prefixes that are dropped. -/
def dropPrefixes : List UInt8 → List UInt8
  | 47 :: s => dropPrefixes s
  | 46 :: 47 :: s => dropPrefixes s
  | 46 :: 46 :: 47 :: s => dropPrefixes s
  | s => s

/-- The name under which a file is archived. -/
def stripped (s : List UInt8) : List UInt8 :=
  let s := dropPrefixes s
  if s = [] ∨ s = [46, 46] then [46] else s

/-- One of the prefixes is there. -/
def Antisocial (s : List UInt8) : Prop := [47] <+: s ∨ [46, 47] <+: s ∨ [46, 46, 47] <+: s

instance (s : List UInt8) : Decidable (Antisocial s) := by
  unfold Antisocial
  infer_instance

variable {s p : List UInt8}

theorem antisocial_string (h : 0 ∉ s) : antisocial (s ++ 0 :: p) = .ok (decide (Antisocial s)) := by
  unfold antisocial
  rw [memcmp_string (by decide), memcmp_string (by decide)]
  cases s with
  | nil => rfl
  | cons a s =>
      dsimp only [List.cons_append, List.head?_cons, readable]
      rw [ok_bind, ok_bind]
      by_cases ha : a = 47
      · rw [if_pos ha]
        simp [Antisocial, ha]
      · rw [if_neg ha]
        by_cases hdot : [46, 47] <+: a :: s
        · simp [Antisocial, hdot]
        · simp [Antisocial, hdot, Ne.symm ha]

theorem not_antisocial (h₁ : ∀ t, s ≠ 47 :: t) (h₂ : ∀ t, s ≠ 46 :: 47 :: t)
    (h₃ : ∀ t, s ≠ 46 :: 46 :: 47 :: t) : ¬ Antisocial s := by
  rintro (⟨t, ht⟩ | ⟨t, ht⟩ | ⟨t, ht⟩)
  · exact h₁ t ht.symm
  · exact h₂ t ht.symm
  · exact h₃ t ht.symm

/-- A pass that drops a prefix. -/
theorem stripLoop_of_antisocial {fuel : Nat} {q : List UInt8} (h : 0 ∉ s) (hs : Antisocial s)
    (hslash : strchr 47 (s ++ 0 :: p) = some (some (47 :: q))) :
    stripLoop (fuel + 1) (s ++ 0 :: p) = stripLoop fuel q := by
  rw [stripLoop, antisocial_string h, ok_bind, decide_eq_true hs, if_pos rfl, hslash]
  rfl

/-- The loop of `strip_antisocial_prefixes` on a string. -/
theorem stripLoop_string {fuel : Nat} (h : 0 ∉ s) (hfuel : s.length < fuel) :
    stripLoop fuel (s ++ 0 :: p) = .ok (dropPrefixes s ++ 0 :: p) := by
  fun_induction dropPrefixes s generalizing fuel with
  | case1 s ih =>
      obtain ⟨fuel, rfl⟩ := Nat.exists_eq_succ_of_ne_zero (Nat.ne_zero_of_lt hfuel)
      rw [stripLoop_of_antisocial h (by simp [Antisocial]) rfl]
      exact ih (by simpa using h) (by simpa using hfuel)
  | case2 s ih =>
      obtain ⟨fuel, rfl⟩ := Nat.exists_eq_succ_of_ne_zero (Nat.ne_zero_of_lt hfuel)
      rw [stripLoop_of_antisocial h (by simp [Antisocial]) rfl]
      refine ih (by simpa using h) ?_
      simp only [List.length_cons] at hfuel
      omega
  | case3 s ih =>
      obtain ⟨fuel, rfl⟩ := Nat.exists_eq_succ_of_ne_zero (Nat.ne_zero_of_lt hfuel)
      rw [stripLoop_of_antisocial h (by simp [Antisocial]) rfl]
      refine ih (by simpa using h) ?_
      simp only [List.length_cons] at hfuel
      omega
  | case4 s h1 h2 h3 =>
      obtain ⟨fuel, rfl⟩ := Nat.exists_eq_succ_of_ne_zero (Nat.ne_zero_of_lt hfuel)
      rw [stripLoop, antisocial_string h, ok_bind, decide_eq_false (not_antisocial h1 h2 h3)]
      rfl

/-- What is left of a name is its end. -/
theorem dropPrefixes_suffix (s : List UInt8) : dropPrefixes s <:+ s := by
  fun_induction dropPrefixes s with
  | case1 s ih => exact ih.trans (List.suffix_cons 47 s)
  | case2 s ih => exact ih.trans ⟨[46, 47], rfl⟩
  | case3 s ih => exact ih.trans ⟨[46, 46, 47], rfl⟩
  | case4 s _ _ _ => exact List.suffix_refl s

theorem not_antisocial_dropPrefixes (s : List UInt8) : ¬ Antisocial (dropPrefixes s) := by
  fun_induction dropPrefixes s with
  | case1 s ih => exact ih
  | case2 s ih => exact ih
  | case3 s ih => exact ih
  | case4 s h1 h2 h3 => exact not_antisocial h1 h2 h3

theorem dropPrefixes_eq_self (h : ¬ Antisocial s) : dropPrefixes s = s := by
  unfold dropPrefixes
  split
  · exact absurd (by simp [Antisocial]) h
  · exact absurd (by simp [Antisocial]) h
  · exact absurd (by simp [Antisocial]) h
  · rfl

/-- A stripped name has nothing more to strip. -/
theorem stripped_idem (s : List UInt8) : stripped (stripped s) = stripped s := by
  have hself := dropPrefixes_eq_self (not_antisocial_dropPrefixes s)
  unfold stripped
  dsimp only
  by_cases hdot : dropPrefixes s = [] ∨ dropPrefixes s = [46, 46]
  · rw [if_pos hdot]
    decide
  · rw [if_neg hdot, hself, if_neg hdot]

theorem stripped_ne_nil (s : List UInt8) : stripped s ≠ [] := by
  unfold stripped
  dsimp only
  split
  · decide
  · rename_i hdot
    exact fun hnil => hdot (Or.inl hnil)

theorem not_mem_stripped (h : 0 ∉ s) : 0 ∉ stripped s := by
  unfold stripped
  dsimp only
  split
  · decide
  · exact fun hmem => h ((dropPrefixes_suffix s).subset hmem)

/-- `strip_antisocial_prefixes` of a string. -/
theorem stripAntisocialPrefixes_string (h : 0 ∉ s) : ∃ q,
    stripAntisocialPrefixes (s ++ 0 :: p) = .ok (stripped s ++ 0 :: q) := by
  have hdrop : 0 ∉ dropPrefixes s := fun hmem => h ((dropPrefixes_suffix s).subset hmem)
  have hhead : (dropPrefixes s ++ 0 :: p).head? = some ((dropPrefixes s).headD 0) := by
    cases dropPrefixes s <;> rfl
  have hzero : (dropPrefixes s).headD 0 = 0 ↔ dropPrefixes s = [] := by
    constructor
    · intro hz
      cases hd : dropPrefixes s with
      | nil => rfl
      | cons a t =>
          rw [hd] at hz hdrop
          exact absurd (hz ▸ List.mem_cons_self) hdrop
    · intro hnil
      rw [hnil]
      rfl
  unfold stripAntisocialPrefixes stripped
  rw [stripLoop_string h (by simp), ok_bind, hhead, strcmp_string hdrop (by decide)]
  dsimp only [readable]
  rw [ok_bind, ok_bind]
  by_cases hnil : dropPrefixes s = []
  · rw [if_pos (hzero.mpr hnil), if_pos (Or.inl hnil)]
    exact ⟨[], rfl⟩
  · rw [if_neg (fun hz => hnil (hzero.mp hz))]
    by_cases hdots : dropPrefixes s = [46, 46]
    · rw [if_pos (decide_eq_true hdots), if_pos (Or.inr hdots)]
      exact ⟨[], rfl⟩
    · rw [if_neg (by simpa using hdots), if_neg (by simp [hnil, hdots])]
      exact ⟨p, rfl⟩

/-! ### Octal numbers -/

theorem toNat_digitChar {d : Nat} (h : d < 8) : (digitChar d).toNat = 48 + d := by
  unfold digitChar
  rw [UInt8.toNat_ofNat']
  omega

/-- The loop reads digits to their end, if their value is an `unsigned long`. -/
theorem octalLoop_digits {ds : List Nat} (hds : ∀ d ∈ ds, d < 8) {n ofs value : Nat}
    (hn : ds.length < n) (hvalue : ds.foldl (shiftIn 8) value < 2 ^ 32) :
    octalLoop n ofs (ds.map digitChar ++ 0 :: p) value =
      .ok (if 0 < ofs + ds.length then some (ds.foldl (shiftIn 8) value) else none) := by
  induction ds generalizing n ofs value with
  | nil =>
      obtain ⟨n, rfl⟩ := Nat.exists_eq_succ_of_ne_zero (Nat.ne_zero_of_lt hn)
      rw [List.map_nil, List.nil_append, octalLoop, if_neg (by decide), if_pos (Or.inr rfl)]
      rfl
  | cons d ds ih =>
      obtain ⟨n, rfl⟩ := Nat.exists_eq_succ_of_ne_zero (Nat.ne_zero_of_lt hn)
      have hd : d < 8 := hds d List.mem_cons_self
      have hchar := toNat_digitChar hd
      have hle := le_foldl_shiftIn (by decide : 0 < 8) ds (shiftIn 8 value d)
      rw [List.foldl_cons] at hvalue ⊢
      have hsmall : shiftIn 8 value d < 2 ^ 32 := Nat.lt_of_le_of_lt hle hvalue
      have hnext : ((digitChar d).toNat - 48 + value * 8) % 2 ^ 32 = shiftIn 8 value d := by
        rw [hchar, Nat.add_sub_cancel_left]
        exact Nat.mod_eq_of_lt hsmall
      have hroom : ¬ ULONG_MAX / 8 < value := by
        unfold shiftIn at hsmall
        unfold ULONG_MAX
        omega
      have hdigit : 48 ≤ digitChar d ∧ digitChar d ≤ 55 := by
        rw [UInt8.le_iff_toNat_le, UInt8.le_iff_toNat_le, hchar]
        exact ⟨Nat.le_add_right 48 d, show 48 + d ≤ 55 by omega⟩
      rw [List.map_cons, List.cons_append, octalLoop, if_pos hdigit, if_neg hroom, hnext,
        ih (fun d' hd' => hds d' (List.mem_cons_of_mem _ hd')) (Nat.lt_of_succ_lt_succ hn) hvalue]
      rw [List.length_cons, Nat.add_assoc, Nat.add_comm 1]

theorem length_octal {width v : Nat} (h : v < 8 ^ width) : (octal width v).length = width := by
  rw [octal, List.length_map, length_paddedDigits (by decide) h]

/-- A field that holds a number. -/
theorem parseOctalField_octal {header : Mem} {f : Field} {width v : Nat} (hpos : 0 < width)
    (hwidth : width < f.size) (hv : v < 8 ^ width) (hword : v < 2 ^ 32)
    (hptr : ptr header f = octal width v ++ 0 :: p) : parseOctalField header f = .ok (some v) := by
  have hlength := length_paddedDigits (by decide : 1 < 8) hv
  have hvalue := foldl_paddedDigits 8 width v
  unfold parseOctalField
  rw [hptr, octal, octalLoop_digits (fun d hd => paddedDigits_lt (by decide) hd)
    (by rw [hlength]; exact hwidth) (by rw [hvalue]; exact hword), hlength, Nat.zero_add,
    if_pos hpos, hvalue]

/-! ### What is in a header that was made -/

/-- The bytes of two writes are not the same. -/
def Apart (w w' : Field × List UInt8) : Prop :=
  w.1.offset + w.2.length ≤ w'.1.offset ∨ w'.1.offset + w'.2.length ≤ w.1.offset

section Writes

variable {header : Mem} {w : Field × List UInt8} {ws : List (Field × List UInt8)}

theorem foldl_write_outside {x : Nat}
    (h : ∀ w ∈ ws, x < w.1.offset ∨ w.1.offset + w.2.length ≤ x) :
    ws.foldl write header x = header x := by
  induction ws generalizing header with
  | nil => rfl
  | cons w ws ih =>
      rw [List.foldl_cons, ih fun w' hw' => h w' (List.mem_cons_of_mem _ hw')]
      exact Mem.blit_of_outside (h w List.mem_cons_self)

theorem foldl_write_inside (hws : ws.Pairwise Apart) (hw : w ∈ ws) {i : Nat}
    (hi : i < w.2.length) : ws.foldl write header (w.1.offset + i) = w.2.getD i 0 := by
  induction ws generalizing header with
  | nil => cases hw
  | cons w' ws ih =>
      obtain ⟨hapart, hrest⟩ := List.pairwise_cons.mp hws
      rw [List.foldl_cons]
      rcases List.mem_cons.mp hw with rfl | hw
      · rw [foldl_write_outside fun w' hw' => ?_]
        · exact Mem.blit_of_inside hi
        · rcases hapart w' hw' with hbehind | hbefore
          · omega
          · omega
      · exact ih hrest hw

/-- The bytes that were written stand at the pointer to the field. -/
theorem ptr_eq (hfits : w.1.offset + w.2.length ≤ USTAR_HEADER_SIZE)
    (h : ∀ i, i < w.2.length → header (w.1.offset + i) = w.2.getD i 0) :
    ∃ q, ptr header w.1 = w.2 ++ q := by
  refine ⟨(ptr header w.1).drop w.2.length, ?_⟩
  have htake : (ptr header w.1).take w.2.length = w.2 := by
    unfold ptr
    refine List.ext_getElem ?_ fun i _ hi => ?_
    · rw [List.length_take, List.length_map, List.length_range]
      omega
    · rw [List.getElem_take, List.getElem_map, List.getElem_range, h i hi]
      exact List.getD_eq_getElem _ _ hi
  exact ((congrArg (· ++ _) htake.symm).trans (List.take_append_drop _ _)).symm

theorem length_text_le {f : Field} (s : List UInt8) (hf : 0 < f.size) :
    (text f s).2.length ≤ f.size := by
  unfold text
  rw [List.length_append, List.length_take, List.length_singleton]
  omega

theorem text_eq {f : Field} (hs : s.length < f.size) : text f s = (f, s ++ [0]) := by
  unfold text
  rw [List.take_of_length_le (Nat.le_sub_one_of_lt hs)]

end Writes

/-- All that `ustar_make_header` writes. -/
def writes (fileName : List UInt8) (type : UstarType) (fileSize : Int) : List (Field × List UInt8) :=
  fields fileName type fileSize ++
    [text chksum (octal 7 (calculateChksum ((fields fileName type fileSize).foldl write fun _ => 0)))]

variable {fileName : List UInt8} {type : UstarType} {fileSize : Int}

theorem compose_eq : compose fileName type fileSize =
    (writes fileName type fileSize).foldl write fun _ => 0 := by
  unfold writes
  rw [List.foldl_append]
  rfl

/-- Every write keeps to its field. -/
theorem writes_fit : ∀ w ∈ writes fileName type fileSize, w.2.length ≤ w.1.size := by
  unfold writes fields
  simp only [List.cons_append, List.nil_append, List.forall_mem_cons]
  refine ⟨?_, ?_, ?_, ?_, ?_, ?_, ?_, ?_, ?_, ?_, ?_, ?_, ?_⟩
  case refine_7 => exact Nat.le_refl 1
  case refine_9 => exact Nat.le_refl 2
  case refine_13 => exact fun w hw => absurd hw List.not_mem_nil
  all_goals exact length_text_le _ (by decide)

theorem fields_of_writes : (writes fileName type fileSize).map Prod.fst =
    [name, mode, uid, gid, size, mtime, typeflag, magic, version, gname, uname, chksum] := rfl

theorem writes_apart : (writes fileName type fileSize).Pairwise Apart := by
  have hfields : ((writes fileName type fileSize).map Prod.fst).Pairwise fun f g =>
      f.offset + f.size ≤ g.offset ∨ g.offset + g.size ≤ f.offset := by
    rw [fields_of_writes]
    decide
  refine (List.pairwise_map.mp hfields).imp_of_mem fun {w w'} hw hw' h => ?_
  have hfit := writes_fit w hw
  have hfit' := writes_fit w' hw'
  unfold Apart
  omega

/-- Nothing is written to the prefix of the name and behind it. -/
theorem writes_end : ∀ w ∈ writes fileName type fileSize,
    w.1.offset + w.2.length ≤ namePrefix.offset := by
  intro w hw
  have hend : ∀ f ∈ (writes fileName type fileSize).map Prod.fst,
      f.offset + f.size ≤ namePrefix.offset := by
    rw [fields_of_writes]
    decide
  have hfit := writes_fit w hw
  have hfield := hend w.1 (List.mem_map_of_mem hw)
  omega

theorem compose_inside {w : Field × List UInt8} (hw : w ∈ writes fileName type fileSize) {i : Nat}
    (hi : i < w.2.length) : compose fileName type fileSize (w.1.offset + i) = w.2.getD i 0 := by
  rw [compose_eq]
  exact foldl_write_inside writes_apart hw hi

theorem compose_outside {x : Nat} (h : ∀ w ∈ writes fileName type fileSize,
    x < w.1.offset ∨ w.1.offset + w.2.length ≤ x) : compose fileName type fileSize x = 0 := by
  rw [compose_eq]
  exact foldl_write_outside h

theorem ptr_compose {w : Field × List UInt8} (hw : w ∈ writes fileName type fileSize) :
    ∃ q, ptr (compose fileName type fileSize) w.1 = w.2 ++ q :=
  ptr_eq (Nat.le_trans (writes_end w hw) (by decide)) fun _ hi => compose_inside hw hi

/-- The last byte of the name is null. -/
theorem compose_nameEnd (hname : fileName.length ≤ 99) :
    compose fileName type fileSize (name.offset + name.size - 1) = 0 := by
  have htext := text_eq (f := name) (Nat.lt_succ_of_le hname)
  by_cases hfull : fileName.length = 99
  · -- it is the null at the end of the string
    have hmem : text name fileName ∈ writes fileName type fileSize := List.mem_cons_self
    have hbyte := compose_inside hmem (i := 99) (by rw [htext, List.length_append, hfull]; decide)
    rw [htext] at hbyte
    refine hbyte.trans ?_
    rw [List.getD_append_right _ _ _ _ (Nat.le_of_eq hfull), hfull]
    rfl
  · refine compose_outside fun w hw => ?_
    rcases List.mem_cons.mp (show w ∈ text name fileName :: (writes fileName type fileSize).tail
      from hw) with rfl | hrest
    · refine Or.inr ?_
      rw [htext, List.length_append]
      exact show 0 + (fileName.length + 1) ≤ 99 by omega
    · have hbehind : ∀ f ∈ ((writes fileName type fileSize).tail).map Prod.fst,
          name.offset + name.size - 1 < f.offset := by
        rw [List.map_tail, fields_of_writes]
        decide
      exact Or.inl (hbehind w.1 (List.mem_map_of_mem hrest))

/-- Writing the checksum does not change it. -/
theorem calculateChksum_write {header : Mem} {s : List UInt8} (hs : s.length ≤ chksum.size) :
    calculateChksum (write header (chksum, s)) = calculateChksum header := by
  unfold calculateChksum
  refine congrArg List.sum (List.map_congr_left fun i _ => ?_)
  split
  · rfl
  · rename_i hout
    unfold write
    dsimp only
    rw [Mem.blit_of_outside (by omega)]

theorem calculateChksum_lt (header : Mem) : calculateChksum header < 8 ^ 7 := by
  have hsum : ∀ l : List Nat, (l.map fun i =>
      if chksum.offset ≤ i ∧ i < chksum.offset + chksum.size then 32
      else (header i).toNat).sum ≤ l.length * 255 := by
    intro l
    induction l with
    | nil => exact Nat.le_refl 0
    | cons i l ih =>
        have hbyte := (header i).toNat_lt
        rw [List.map_cons, List.sum_cons, List.length_cons, Nat.succ_mul]
        split
        · omega
        · omega
  have hle := hsum (List.range USTAR_HEADER_SIZE)
  rw [List.length_range] at hle
  unfold calculateChksum
  unfold USTAR_HEADER_SIZE at hle ⊢
  omega

/-! ### A header is read back -/

/-- What the checks of `ustar_parse_header` find in the header of a file. -/
structure Describes (header : Mem) (fileName : List UInt8) (type : UstarType) (fileSize : Nat) :
    Prop where
  magic : ∃ q, ptr header magic = [117, 115, 116, 97, 114, 0] ++ q
  version : header version.offset = 48 ∧ header (version.offset + 1) = 48
  chksum : parseOctalField header chksum = .ok (some (calculateChksum header))
  nameEnd : header (name.offset + name.size - 1) = 0
  namePrefix : header namePrefix.offset = 0
  flag : header typeflag.offset = type.flag
  size : parseOctalField header size = .ok (some fileSize)
  name : ∃ q, ptr header name = fileName ++ 0 :: q

/-- A byte that is not zero shows that the archive goes on. -/
theorem isAllZeros_eq_false {block : Mem} {cnt i : Nat} (hi : i < cnt) (h : block i ≠ 0) :
    isAllZeros block cnt = false := by
  rw [isAllZeros, List.all_eq_false]
  exact ⟨i, List.mem_range.mpr hi, by simpa using h⟩

/-- A header that describes a file is read as one. The checks come in the order of the source,
and each of them is about one field: that not all is zero, the magic, the version, the
checksum, the name, the type and the size. -/
theorem Describes.parse {header : Mem} {fileSize : Nat}
    (h : Describes header fileName type fileSize) (hname : 0 ∉ fileName)
    (htype : type ≠ .eof) (hsize : fileSize < 2 ^ 31) : ∃ q, ustarParseHeader header =
      .ok (.ok ⟨some (stripped fileName ++ 0 :: q), type,
        if type = .regular then fileSize else 0⟩) := by
  obtain ⟨m, hmagic⟩ := h.magic
  obtain ⟨n, hptr⟩ := h.name
  obtain ⟨q, hstrip⟩ := stripAntisocialPrefixes_string (p := n) hname
  have hzeros : isAllZeros header USTAR_HEADER_SIZE = false := by
    refine isAllZeros_eq_false (i := Ustar.version.offset) (by decide) ?_
    rw [h.version.1]
    decide
  refine ⟨q, ?_⟩
  unfold ustarParseHeader
  rw [hzeros, if_neg (by decide), hmagic, memcmp_append]
  dsimp only [readable]
  rw [ok_bind, if_neg (by decide), if_neg (by simp [h.version]), h.chksum, ok_bind]
  dsimp only
  rw [if_neg (by simp), if_neg (by simp [h.nameEnd, h.namePrefix]), h.flag, hptr, hstrip]
  cases type with
  | regular =>
      rw [if_neg (by decide), if_pos rfl, h.size, ok_bind]
      dsimp only
      rw [if_neg (by omega), ok_bind]
      rfl
  | directory =>
      rw [if_neg (by decide), if_neg (by decide), ok_bind]
      rfl
  | eof => exact absurd rfl htype

/-- The header of a file with a name that fits describes the file. -/
theorem compose_describes (hname : fileName.length ≤ 99) :
    Describes (compose fileName type fileSize) fileName type (toUInt32 fileSize) := by
  have hword := toUInt32_lt fileSize
  have hsum := calculateChksum_lt ((fields fileName type fileSize).foldl write fun _ => 0)
  have hchksum : calculateChksum (compose fileName type fileSize) =
      calculateChksum ((fields fileName type fileSize).foldl write fun _ => 0) := by
    unfold compose
    exact calculateChksum_write (length_text_le _ (by decide))
  have hfields : ∀ w ∈ fields fileName type fileSize, w ∈ writes fileName type fileSize :=
    fun w hw => List.mem_append_left _ hw
  have hversion : (version, [48, 48]) ∈ writes fileName type fileSize :=
    hfields _ (by simp [fields])
  refine ⟨?_, ⟨?_, ?_⟩, ?_, ?_, ?_, ?_, ?_, ?_⟩
  · exact ptr_compose (hfields (text magic [117, 115, 116, 97, 114]) (by simp [fields]))
  · exact compose_inside hversion (i := 0) (by decide)
  · exact compose_inside hversion (i := 1) (by decide)
  · obtain ⟨q, hq⟩ := ptr_compose (List.mem_append_right (fields fileName type fileSize)
      (List.mem_singleton_self (text chksum (octal 7 (calculateChksum
        ((fields fileName type fileSize).foldl write fun _ => 0))))))
    rw [text_eq (by rw [length_octal hsum]; decide), List.append_assoc] at hq
    rw [hchksum]
    exact parseOctalField_octal (by decide) (by decide) hsum (by omega) hq
  · exact compose_nameEnd hname
  · refine compose_outside fun w hw => Or.inr (writes_end w hw)
  · exact compose_inside (hfields (typeflag, [type.flag]) (by simp [fields])) (i := 0)
      Nat.one_pos
  · obtain ⟨q, hq⟩ := ptr_compose (hfields (text size (octal 11 (toUInt32 fileSize)))
      (by simp [fields]))
    rw [text_eq (by rw [length_octal (by omega)]; decide), List.append_assoc] at hq
    exact parseOctalField_octal (by decide) (by decide) (by omega) hword hq
  · obtain ⟨q, hq⟩ := ptr_compose (hfields (text name fileName) (by simp [fields]))
    rw [text_eq (Nat.lt_succ_of_le hname), List.append_assoc] at hq
    exact ⟨q, hq⟩

/-- `ustar_make_header` fails only when the stripped name is too long. -/
theorem ustarMakeHeader_eq (hname : 0 ∉ fileName) (htype : type ≠ .eof) :
    ustarMakeHeader fileName type fileSize =
      .ok (if 99 < (stripped fileName).length then none
        else some (compose (stripped fileName) type fileSize)) := by
  obtain ⟨q, hstrip⟩ := stripAntisocialPrefixes_string (p := []) hname
  have hstripped := not_mem_stripped hname
  unfold ustarMakeHeader
  rw [if_neg htype, hstrip, ok_bind, strlen_string hstripped, chars_string hstripped]
  dsimp only [readable]
  rw [ok_bind]
  split
  · rfl
  · rfl

/-- `ustar_parse_header` gives back what `ustar_make_header` was given. -/
theorem ustarParseHeader_compose (hname : 0 ∉ fileName)
    (hlength : (stripped fileName).length ≤ 99) (htype : type ≠ .eof) (h₀ : 0 ≤ fileSize)
    (h₁ : fileSize < 2 ^ 31) : ∃ q,
      ustarParseHeader (compose (stripped fileName) type fileSize) =
        .ok (.ok ⟨some (stripped fileName ++ 0 :: q), type,
          if type = .regular then fileSize else 0⟩) := by
  have hword : (toUInt32 fileSize : Int) = fileSize := by
    unfold toUInt32
    omega
  obtain ⟨q, hparse⟩ := (compose_describes hlength).parse (not_mem_stripped hname) htype
    (by omega : toUInt32 fileSize < 2 ^ 31)
  rw [stripped_idem, hword] at hparse
  exact ⟨q, hparse⟩

/-- A block of zeros ends the archive. -/
theorem ustarParseHeader_zeros {header : Mem}
    (h : ∀ i, i < USTAR_HEADER_SIZE → header i = 0) :
    ustarParseHeader header = .ok (.ok ⟨none, .eof, 0⟩) := by
  have hzeros : isAllZeros header USTAR_HEADER_SIZE = true := by
    rw [isAllZeros, List.all_eq_true]
    exact fun i hi => decide_eq_true (h i (List.mem_range.mp hi))
  unfold ustarParseHeader
  rw [if_pos hzeros]

/-- Only the block matters to `ustar_parse_header`. -/
theorem ustarParseHeader_congr {header header' : Mem}
    (h : ∀ i, i < USTAR_HEADER_SIZE → header i = header' i) :
    ustarParseHeader header = ustarParseHeader header' := by
  have hzeros : isAllZeros header USTAR_HEADER_SIZE = isAllZeros header' USTAR_HEADER_SIZE := by
    rw [Bool.eq_iff_iff, isAllZeros, isAllZeros, List.all_eq_true, List.all_eq_true]
    refine forall₂_congr fun i hi => ?_
    rw [h i (List.mem_range.mp hi)]
  have hptr : ∀ f, ptr header f = ptr header' f := fun f => by
    unfold ptr
    refine List.map_congr_left fun i hi => h _ ?_
    have := List.mem_range.mp hi
    omega
  have hsum : calculateChksum header = calculateChksum header' := by
    unfold calculateChksum
    refine congrArg List.sum (List.map_congr_left fun i hi => ?_)
    rw [h i (List.mem_range.mp hi)]
  have hoctal : ∀ f, parseOctalField header f = parseOctalField header' f := fun f => by
    unfold parseOctalField
    rw [hptr]
  unfold ustarParseHeader
  rw [hzeros, hptr magic, hptr name, hoctal chksum, hoctal size, hsum, h version.offset (by decide),
    h (version.offset + 1) (by decide), h (name.offset + name.size - 1) (by decide),
    h namePrefix.offset (by decide), h typeflag.offset (by decide)]

end Ustar

end OsTools.Filesys

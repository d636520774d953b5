import Mathlib.Data.List.GetD
import OsTools.Lib.Bytes
import OsTools.Lib.Except
/-!
# OsTools.Boot.CommandLine

The kernel's command line. `utils/Pintos.pm` packs the arguments into the boot sector, the BIOS
loads the sector, and `read_command_line` (`threads/init.c`) takes them apart again.

The addresses are physical ones. The line that is printed is left out.

## Proof shape

Packing and reading are inverse because of one property of the area: each argument is
followed by a zero and has none in it, so that `strnlen` finds the end that the packer has
made (`strnlen_eq`). `argLoop_spec` is by induction on the arguments, with the address of
the next one as a sum of the lengths of those before.

There are 128 bytes for the arguments and 64 pointers for them. An argument that is not
empty takes two bytes at least, and so the pointers suffice (`two_mul_length_le`); empty
arguments take one byte, and then they may not.
-/

namespace OsTools.Boot

/-! ### The boot sector -/

/-- The bytes in front of the arguments, for the loader. -/
def LOADER_SIZE : Nat := 314

/-- `pack("V", n)`. -/
def packV (n : Nat) : List UInt8 := (List.range 4).map (Mem.byteOf n)

/-- `pack("a" . len, bytes)`: cut off, or filled up with zeros. -/
def packA (len : Nat) (bytes : List UInt8) : List UInt8 :=
  (bytes ++ List.replicate len 0).take len

/-- Each argument with a zero behind it. -/
def joinArgs (args : List (List UInt8)) : List UInt8 := args.flatMap fun arg => arg ++ [0]

/-- `make_kernel_command_line`; `none` where it dies. -/
def makeKernelCommandLine (args : List (List UInt8)) : Option (List UInt8) :=
  if (joinArgs args).length > 128 then none
  else some (packV args.length ++ packA 128 (joinArgs args))

/-- The boot sector in `assemble_disk`. -/
def makeMbr (loader line table : List UInt8) : List UInt8 :=
  packA LOADER_SIZE loader ++ (line ++ (packA 64 table ++ [0x55, 0xaa]))

/-! ### `loader.h` -/

def LOADER_BASE : Nat := 0x7c00
def LOADER_END : Nat := 0x7e00
def LOADER_SIG_LEN : Nat := 2
def LOADER_PARTS_LEN : Nat := 64
def LOADER_ARGS_LEN : Nat := 128
def LOADER_ARG_CNT_LEN : Nat := 4
def LOADER_SIG : Nat := LOADER_END - LOADER_SIG_LEN
def LOADER_PARTS : Nat := LOADER_SIG - LOADER_PARTS_LEN
def LOADER_ARGS : Nat := LOADER_PARTS - LOADER_ARGS_LEN
def LOADER_ARG_CNT : Nat := LOADER_ARGS - LOADER_ARG_CNT_LEN

/-- The BIOS loads the boot sector. -/
def loadMbr (m : Mem) (mbr : List UInt8) : Mem :=
  m.blit LOADER_BASE 512 fun i => mbr.getD i 0

/-! ### `read_command_line` -/

inductive LineError
  /-- `PANIC("command line arguments overflow")`. -/
  | overflow
  /-- An element is written behind the end of `argv`, or in front of it. -/
  | outOfBounds
  deriving DecidableEq

/-- The elements of `argv`. -/
def ARGV_LEN : Nat := LOADER_ARGS_LEN / 2 + 1

def strnlen (m : Mem) (p : Nat) : Nat → Nat
  | 0 => 0
  | maxlen + 1 => if m p = 0 then 0 else strnlen m (p + 1) maxlen + 1

/-- The loop, with `n` arguments left, and `argv[argc] = NULL` behind it. -/
def argLoop (m : Mem) : Nat → Nat → Nat → Except LineError (List Nat)
  | 0, i, _ => if ARGV_LEN ≤ i then .error .outOfBounds else .ok []
  | n + 1, i, p =>
      if LOADER_ARGS + LOADER_ARGS_LEN ≤ p then .error .overflow
      else if ARGV_LEN ≤ i then .error .outOfBounds
      else do
        let argv ← argLoop m n (i + 1) (p + strnlen m p (LOADER_ARGS + LOADER_ARGS_LEN - p) + 1)
        .ok (p :: argv)

/-- `read_command_line`. The count is read as an `int`. -/
def readCommandLine (m : Mem) : Except LineError (List Nat) :=
  let argc := m.load LOADER_ARG_CNT LOADER_ARG_CNT_LEN
  if 2 ^ 31 ≤ argc then .error .outOfBounds else argLoop m argc 0 LOADER_ARGS

/-- The string at `p` is `s`. -/
structure IsString (m : Mem) (p : Nat) (s : List UInt8) : Prop where
  chars : ∀ i < s.length, m (p + i) = s.getD i 0
  ends : m (p + s.length) = 0

/-- The bytes `l` are at `p`. -/
def Holds (m : Mem) (p : Nat) (l : List UInt8) : Prop := ∀ i < l.length, m (p + i) = l.getD i 0

variable {m : Mem} {p i maxlen : Nat} {s l l' : List UInt8} {args : List (List UInt8)}

/-! ### Packing -/

theorem length_packA (len : Nat) (l : List UInt8) : (packA len l).length = len := by
  unfold packA
  rw [List.length_take, List.length_append, List.length_replicate]
  omega

theorem length_packV (n : Nat) : (packV n).length = 4 := by
  unfold packV
  rw [List.length_map, List.length_range]

theorem packV_getD (n : Nat) (hi : i < 4) : (packV n).getD i 0 = Mem.byteOf n i := by
  unfold packV
  rw [List.getD_eq_getElem?_getD, List.getElem?_map, List.getElem?_range hi]
  rfl

theorem packA_getD (hi : i < l.length) (hlen : l.length ≤ maxlen) :
    (packA maxlen l).getD i 0 = l.getD i 0 := by
  unfold packA
  rw [List.getD_eq_getElem?_getD, List.getElem?_take_of_lt (by omega),
    List.getElem?_append_left hi, ← List.getD_eq_getElem?_getD]

theorem Holds.left (h : Holds m p (l ++ l')) : Holds m p l := by
  intro i hi
  have := h i (by rw [List.length_append]; omega)
  rwa [List.getD_append _ _ _ _ hi] at this

theorem Holds.right (h : Holds m p (l ++ l')) : Holds m (p + l.length) l' := by
  intro i hi
  have := h (l.length + i) (by rw [List.length_append]; omega)
  rwa [List.getD_append_right _ _ _ _ (by omega), Nat.add_sub_cancel_left, ← Nat.add_assoc] at this

theorem Holds.packA (h : Holds m p (packA maxlen l)) (hlen : l.length ≤ maxlen) : Holds m p l := by
  intro i hi
  rw [h i (by rw [length_packA]; omega), packA_getD hi hlen]

/-! ### Reading the arguments -/

theorem joinArgs_cons (a : List UInt8) (args : List (List UInt8)) :
    joinArgs (a :: args) = a ++ ([0] ++ joinArgs args) := by
  unfold joinArgs
  rw [List.flatMap_cons, List.append_assoc]

theorem joinArgs_append (args args' : List (List UInt8)) :
    joinArgs (args ++ args') = joinArgs args ++ joinArgs args' := List.flatMap_append

theorem length_le_joinArgs (args : List (List UInt8)) : args.length ≤ (joinArgs args).length := by
  induction args with
  | nil => exact Nat.le_refl 0
  | cons a args ih =>
      rw [joinArgs_cons, List.length_append, List.length_append, List.length_cons,
        List.length_singleton]
      omega

theorem strnlen_eq (h : IsString m p s) (hs : 0 ∉ s) (hlen : s.length < maxlen) :
    strnlen m p maxlen = s.length := by
  induction s generalizing p maxlen with
  | nil =>
      obtain ⟨maxlen, rfl⟩ := Nat.exists_eq_succ_of_ne_zero (by omega : maxlen ≠ 0)
      exact if_pos h.ends
  | cons c s ih =>
      rw [List.length_cons] at hlen
      obtain ⟨maxlen, rfl⟩ := Nat.exists_eq_succ_of_ne_zero (by omega : maxlen ≠ 0)
      have hc : m p = c := h.chars 0 (by rw [List.length_cons]; omega)
      have hne : c ≠ 0 := fun heq => hs (heq ▸ List.mem_cons_self)
      have hrest : IsString m (p + 1) s := by
        refine ⟨fun i hi => ?_, ?_⟩
        · have := h.chars (i + 1) (by rw [List.length_cons]; omega)
          rwa [List.getD_cons_succ, ← Nat.add_assoc, Nat.add_right_comm] at this
        · have := h.ends
          rwa [List.length_cons, ← Nat.add_assoc, Nat.add_right_comm] at this
      unfold strnlen
      rw [hc, if_neg hne, ih hrest (fun hmem => hs (List.mem_cons_of_mem _ hmem)) (by omega)]
      rfl

/-- The first of the arguments, and where the others are. -/
theorem Holds.string {a : List UInt8} (h : Holds m p (joinArgs (a :: args))) :
    IsString m p a ∧ Holds m (p + a.length + 1) (joinArgs args) := by
  rw [joinArgs_cons] at h
  have hzero := h.right.left 0 (by rw [List.length_singleton]; omega)
  exact ⟨⟨h.left, hzero⟩, h.right.right⟩

/-- By induction on the arguments, from the `i`-th one on. -/
theorem argLoop_spec (hzero : ∀ a ∈ args, (0 : UInt8) ∉ a) (h : Holds m p (joinArgs args))
    (hend : p + (joinArgs args).length ≤ LOADER_ARGS + LOADER_ARGS_LEN) :
    if i + args.length < ARGV_LEN then
      ∃ argv, argLoop m args.length i p = .ok argv ∧ List.Forall₂ (IsString m) argv args
    else argLoop m args.length i p = .error .outOfBounds := by
  induction args generalizing i p with
  | nil =>
      rw [List.length_nil, Nat.add_zero, argLoop]
      by_cases hi : i < ARGV_LEN
      · rw [if_pos hi, if_neg (by omega)]
        exact ⟨[], rfl, .nil⟩
      · rw [if_neg hi, if_pos (by omega)]
  | cons a args ih =>
      obtain ⟨hstring, hrest⟩ := h.string
      have hlen : (joinArgs (a :: args)).length = a.length + 1 + (joinArgs args).length := by
        rw [joinArgs_cons, List.length_append, List.length_append, List.length_singleton]
        omega
      rw [hlen] at hend
      have hstrnlen : strnlen m p (LOADER_ARGS + LOADER_ARGS_LEN - p) = a.length :=
        strnlen_eq hstring (hzero a List.mem_cons_self) (by omega)
      have hnext := ih (i := i + 1) (fun b hb => hzero b (List.mem_cons_of_mem _ hb)) hrest
        (by omega)
      rw [List.length_cons, argLoop]
      rw [if_neg (by omega : ¬ LOADER_ARGS + LOADER_ARGS_LEN ≤ p), hstrnlen]
      by_cases hfew : i + 1 + args.length < ARGV_LEN
      · rw [if_pos hfew] at hnext
        obtain ⟨argv, hargv, hall⟩ := hnext
        rw [if_pos (by omega), if_neg (by omega : ¬ ARGV_LEN ≤ i), hargv]
        exact ⟨p :: argv, rfl, .cons hstring hall⟩
      · rw [if_neg hfew] at hnext
        rw [if_neg (by omega)]
        by_cases hi : ARGV_LEN ≤ i
        · rw [if_pos hi]
        · rw [if_neg hi, hnext]
          rfl

/-! ### The round trip -/

theorem loadMbr_holds {mbr : List UInt8} (m : Mem) (hlen : mbr.length ≤ 512) :
    Holds (loadMbr m mbr) LOADER_BASE mbr := by
  intro i hi
  exact Mem.blit_of_inside (by omega)

theorem makeKernelCommandLine_eq_some {line : List UInt8}
    (h : makeKernelCommandLine args = some line) :
    (joinArgs args).length ≤ 128 ∧ line = packV args.length ++ packA 128 (joinArgs args) := by
  unfold makeKernelCommandLine at h
  split at h
  · cases h
  · exact ⟨by omega, (Option.some.inj h).symm⟩

/-- What is in memory behind the loader. -/
theorem loadMbr_line {line : List UInt8} (m : Mem) (loader table : List UInt8)
    (h : makeKernelCommandLine args = some line) :
    (loadMbr m (makeMbr loader line table)).load LOADER_ARG_CNT LOADER_ARG_CNT_LEN = args.length ∧
      Holds (loadMbr m (makeMbr loader line table)) LOADER_ARGS (joinArgs args) := by
  obtain ⟨hlen, rfl⟩ := makeKernelCommandLine_eq_some h
  have hsize : (makeMbr loader (packV args.length ++ packA 128 (joinArgs args)) table).length ≤
      512 := by
    unfold makeMbr LOADER_SIZE
    simp only [List.length_append, length_packA, length_packV, List.length_cons, List.length_nil]
    omega
  have hmbr := loadMbr_holds m hsize
  have hline := hmbr.right.left
  rw [length_packA] at hline
  have hcnt := hline.left
  have hargs := hline.right.packA hlen
  rw [length_packV] at hargs
  have hfew := length_le_joinArgs args
  refine ⟨?_, hargs⟩
  refine Mem.load_of_bytes (fun i hi => ?_) (by unfold LOADER_ARG_CNT_LEN; omega)
  exact (hcnt i (by rw [length_packV]; exact hi)).trans (packV_getD args.length hi)

/-- Reading what was packed. Up to 64 arguments come out as they went in; with more of them
there is a write behind the end of `argv`, whatever they are. -/
theorem readCommandLine_spec {line : List UInt8} (m : Mem) (loader table : List UInt8)
    (hzero : ∀ a ∈ args, (0 : UInt8) ∉ a) (h : makeKernelCommandLine args = some line) :
    if args.length ≤ 64 then
      ∃ argv, readCommandLine (loadMbr m (makeMbr loader line table)) = .ok argv ∧
        List.Forall₂ (IsString (loadMbr m (makeMbr loader line table))) argv args
    else readCommandLine (loadMbr m (makeMbr loader line table)) = .error .outOfBounds := by
  obtain ⟨hcnt, hargs⟩ := loadMbr_line m loader table h
  have hlen := (makeKernelCommandLine_eq_some h).1
  have hfew := length_le_joinArgs args
  have hread : readCommandLine (loadMbr m (makeMbr loader line table)) =
      argLoop (loadMbr m (makeMbr loader line table)) args.length 0 LOADER_ARGS := by
    unfold readCommandLine
    rw [hcnt]
    exact if_neg (by omega)
  have hspec := argLoop_spec (i := 0) hzero hargs (by
    unfold LOADER_ARGS_LEN
    omega)
  have hargv : ARGV_LEN = 65 := rfl
  rw [hread]
  by_cases hle : args.length ≤ 64
  · rw [if_pos hle]
    rwa [if_pos (by omega)] at hspec
  · rw [if_neg hle]
    rwa [if_neg (by omega)] at hspec

/-- An argument that is not empty takes two bytes. -/
theorem two_mul_length_le (hne : ∀ a ∈ args, a ≠ []) : 2 * args.length ≤ (joinArgs args).length := by
  induction args with
  | nil => exact Nat.le_refl 0
  | cons a args ih =>
      have ha := List.length_pos_iff.mpr (hne a List.mem_cons_self)
      have hargs := ih fun b hb => hne b (List.mem_cons_of_mem _ hb)
      rw [joinArgs_cons, List.length_append, List.length_append, List.length_cons,
        List.length_singleton]
      omega

/-- **The command line.** The kernel reads back exactly the arguments that were packed into the
boot sector, whatever loader and partitions are in it, if they are no more than 64, which they are
if none is empty. With more of them it writes behind the end of `argv`. -/
theorem command_line_round_trip {line : List UInt8} (m : Mem) (loader table : List UInt8)
    (hzero : ∀ a ∈ args, (0 : UInt8) ∉ a) (h : makeKernelCommandLine args = some line) :
    (args.length ≤ 64 → ∃ argv,
      readCommandLine (loadMbr m (makeMbr loader line table)) = .ok argv ∧
      List.Forall₂ (IsString (loadMbr m (makeMbr loader line table))) argv args) ∧
    (64 < args.length →
      readCommandLine (loadMbr m (makeMbr loader line table)) = .error .outOfBounds) ∧
    ((∀ a ∈ args, a ≠ []) → args.length ≤ 64) := by
  have hspec := readCommandLine_spec m loader table hzero h
  refine ⟨fun hle => ?_, fun hlt => ?_, fun hne => ?_⟩
  · rwa [if_pos hle] at hspec
  · rwa [if_neg (by omega)] at hspec
  · have hlen := (makeKernelCommandLine_eq_some h).1
    have htwo := two_mul_length_le hne
    omega

/-- `run 'echo x'`. -/
theorem command_line_round_trip_run : ∃ line argv,
    makeKernelCommandLine [[114, 117, 110], [101, 99, 104, 111, 32, 120]] = some line ∧
    readCommandLine (loadMbr (fun _ => 0) (makeMbr [] line [])) = .ok argv ∧
    List.Forall₂ (IsString (loadMbr (fun _ => 0) (makeMbr [] line []))) argv
      [[114, 117, 110], [101, 99, 104, 111, 32, 120]] := by
  obtain ⟨argv, hread, hall⟩ := (command_line_round_trip (fun _ => 0) [] [] (by decide)
    (rfl : makeKernelCommandLine [[114, 117, 110], [101, 99, 104, 111, 32, 120]] = _)).1 (by decide)
  exact ⟨_, argv, rfl, hread, hall⟩

end OsTools.Boot

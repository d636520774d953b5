import OsTools.Lib.CString
import OsTools.Lib.Except
import OsTools.Lib.Word
/-!
# OsTools.Stdlib.Printf

The formatted output of `lib/stdio.c`: `__vprintf` with `parse_conversion`, `format_integer` and
`format_string`. The result is the text that goes to `output`.

A pointer into the format string is what is left of it, as in `OsTools.Lib.CString`. An `int`
wraps around. Floating point is not modelled: a `double` is what `__vprintf` computes from it.

The `switch` of `__vprintf` ends in a call of `__printf` for a conversion that it does not
know, which is a recursion in the source. Here `convert` has the inner call as an argument,
and `vprintf` ties the knot once: the messages have no unknown conversions, so that the
inner call makes no further one.

The buffer of `format_integer` is filled from its end in the source, so that a list to which
characters are added in front is the text in the order of the output.
-/

namespace OsTools.Stdlib.Printf

open OsTools.CString

/-- What goes wrong: a character behind the end of the format string is read, or one is written
behind the end of the buffer of `format_integer`, or the bound on the rounds of a loop is too
small. -/
inductive Fault
  | format
  | buffer
  | rounds
  deriving DecidableEq

/-- `(int) n`. -/
def toInt (n : Int) : Int := Int.bmod n (2 ^ 32)

def ch (c : Char) : UInt8 := UInt8.ofNat c.toNat

/-! ### Conversions -/

structure Flags where
  minus : Bool
  plus : Bool
  space : Bool
  pound : Bool
  zero : Bool
  group : Bool
  deriving DecidableEq

/-- The `type` of a conversion. -/
inductive Size
  | char
  | short
  | int
  | intmax
  | long
  | longlong
  | ptrdifft
  | sizet
  deriving DecidableEq

/-- `struct printf_conversion`. -/
structure Conversion where
  flags : Flags
  width : Int
  precision : Int
  type : Size
  deriving DecidableEq

/-- `struct integer_base`; `x` is 0 for none. -/
structure IntegerBase where
  base : Nat
  digits : List UInt8
  x : UInt8
  group : Nat

def baseD : IntegerBase := ⟨10, [48, 49, 50, 51, 52, 53, 54, 55, 56, 57], 0, 3⟩
def baseO : IntegerBase := ⟨8, [48, 49, 50, 51, 52, 53, 54, 55], 0, 3⟩
def baseSmallX : IntegerBase :=
  ⟨16, [48, 49, 50, 51, 52, 53, 54, 55, 56, 57, 97, 98, 99, 100, 101, 102], ch 'x', 4⟩
def baseX : IntegerBase :=
  ⟨16, [48, 49, 50, 51, 52, 53, 54, 55, 56, 57, 65, 66, 67, 68, 69, 70], ch 'X', 4⟩

/-! ### Arguments -/

/-- What `__vprintf` takes from a `double`: `(int) d`, `(int) ((d - first) * powers[precision])`
and `d < 0`. -/
structure Double where
  first : Int
  rest : Nat → Int
  negative : Bool

/-- An argument, as each type that `va_arg` may ask for: 32 and 64 bits, a string (its characters,
none of them null, or a null pointer) and a `double`. -/
structure Arg where
  word : UInt32
  dword : UInt64
  string : Option (List UInt8)
  double : Double

/-- The arguments, the ones that are still to come. -/
abbrev Args := Nat → Arg

/-- `va_arg`. -/
def vaArg (args : Args) : Arg × Args := (args 0, fun i => args (i + 1))

/-- `va_arg (args, int)`. -/
def Arg.int (a : Arg) : Int := toInt a.word.toNat

/-! ### `parse_conversion` -/

/-- `*format`. -/
def peek (format : List UInt8) : Except Fault UInt8 :=
  match format with
  | [] => .error .format
  | c :: _ => .ok c

/-- The bit of a flag character is set. -/
def Flags.add (f : Flags) (c : UInt8) : Option Flags :=
  if c = ch '-' then some { f with minus := true }
  else if c = ch '+' then some { f with plus := true }
  else if c = ch ' ' then some { f with space := true }
  else if c = ch '#' then some { f with pound := true }
  else if c = ch '0' then some { f with zero := true }
  else if c = 39 then some { f with group := true }
  else none

/-- "Parse flag characters." -/
def parseFlags : List UInt8 → Flags → Except Fault (Flags × List UInt8)
  | [], _ => .error .format
  | c :: format, f =>
      match f.add c with
      | some f => parseFlags format f
      | none => .ok (f, c :: format)

/-- What follows the loop over the flag characters. -/
def Flags.clear (f : Flags) : Flags :=
  let f := if f.minus then { f with zero := false } else f
  if f.plus then { f with space := false } else f

def isdigit (c : UInt8) : Bool := ch '0' ≤ c ∧ c ≤ ch '9'

/-- `for (; isdigit (*format); format++) n = n * 10 + *format - '0'`. -/
def parseDigits : List UInt8 → Int → Except Fault (Int × List UInt8)
  | [], _ => .error .format
  | c :: format, n =>
      if isdigit c then parseDigits format (toInt (n * 10 + c.toNat - 48))
      else .ok (n, c :: format)

/-- "Parse field width", up to the test for a negative one. -/
def parseWidth (format : List UInt8) (args : Args) : Except Fault (Int × List UInt8 × Args) := do
  if (← peek format) = ch '*' then
    let (a, args) := vaArg args
    .ok (a.int, format.tail, args)
  else
    let (width, format) ← parseDigits format 0
    .ok (width, format, args)

/-- The test for a negative width. -/
def Conversion.setWidth (c : Conversion) (width : Int) : Conversion :=
  if width < 0 then { c with width := toInt (-width), flags := { c.flags with minus := true } }
  else { c with width }

/-- "Parse precision", up to the test for a negative one. -/
def parsePrecision (format : List UInt8) (args : Args) :
    Except Fault (Int × List UInt8 × Args) := do
  if (← peek format) = ch '.' then
    let format := format.tail
    if (← peek format) = ch '*' then
      let (a, args) := vaArg args
      .ok (a.int, format.tail, args)
    else
      let (precision, format) ← parseDigits format 0
      .ok (precision, format, args)
  else .ok (-1, format, args)

/-- The tests of the precision. -/
def Conversion.setPrecision (c : Conversion) (precision : Int) : Conversion :=
  if precision < 0 then { c with precision := -1 }
  else { c with precision, flags := { c.flags with zero := false } }

/-- "Parse type." -/
def parseType (format : List UInt8) : Except Fault (Size × List UInt8) := do
  let c ← peek format
  let next := format.tail
  if c = ch 'h' then
    if (← peek next) = ch 'h' then .ok (.char, next.tail) else .ok (.short, next)
  else if c = ch 'j' then .ok (.intmax, next)
  else if c = ch 'l' then
    if (← peek next) = ch 'l' then .ok (.longlong, next.tail) else .ok (.long, next)
  else if c = ch 't' then .ok (.ptrdifft, next)
  else if c = ch 'z' then .ok (.sizet, next)
  else .ok (.int, format)

/-- What `parse_conversion` makes of the flags, the width and the precision that it has read. -/
def normalise (flags : Flags) (width precision : Int) (type : Size) : Conversion :=
  ((Conversion.mk flags.clear 0 (-1) type).setWidth width).setPrecision precision

/-- `parse_conversion`. -/
def parseConversion (format : List UInt8) (args : Args) :
    Except Fault (Conversion × List UInt8 × Args) := do
  let (flags, format) ← parseFlags format ⟨false, false, false, false, false, false⟩
  let (width, format, args) ← parseWidth format args
  let (precision, format, args) ← parsePrecision format args
  let (type, format) ← parseType format
  .ok (normalise flags width precision type, format, args)

/-! ### `format_integer` -/

/-- `*cp++ = c`, the buffer being in the order of the output. -/
def push (buf : List UInt8) (c : UInt8) : Except Fault (List UInt8) :=
  if buf.length < 64 then .ok (c :: buf) else .error .buffer

/-- The separator before a digit. -/
def separate (b : IntegerBase) (group : Bool) (digitCnt : Nat) (buf : List UInt8) :
    Except Fault (List UInt8) :=
  if group ∧ 0 < digitCnt ∧ digitCnt % b.group = 0 then push buf (ch ',') else .ok buf

/-- "Accumulate digits into buffer." A round makes the value smaller. -/
def digitsLoop (b : IntegerBase) (group : Bool) :
    Nat → Nat → Nat → List UInt8 → Except Fault (List UInt8)
  | 0, _, _, _ => .error .rounds
  | rounds + 1, value, digitCnt, buf =>
      if 0 < value then do
        let buf ← separate b group digitCnt buf
        let buf ← push buf (b.digits.getD (value % b.base) 0)
        digitsLoop b group rounds (value / b.base) (digitCnt + 1) buf
      else .ok buf

/-- "Append enough zeros to match precision." -/
def zerosLoop (precision : Int) : Nat → List UInt8 → Except Fault (List UInt8)
  | 0, _ => .error .rounds
  | rounds + 1, buf =>
      if buf.length < precision ∧ buf.length < 64 - 1 then do
        let buf ← push buf (ch '0')
        zerosLoop precision rounds buf
      else .ok buf

/-- The sign character of `format_integer`. -/
def signOf (isSigned negative : Bool) (f : Flags) : Option UInt8 :=
  if isSigned then
    if f.plus then some (if negative then ch '-' else ch '+')
    else if f.space then some (if negative then ch '-' else ch ' ')
    else if negative then some (ch '-')
    else none
  else none

/-- The `x` of `format_integer`, 0 for none. -/
def xOf (value : UInt64) (b : IntegerBase) (f : Flags) : UInt8 :=
  if f.pound ∧ value ≠ 0 then b.x else 0

/-- "Rendered precision." -/
def Conversion.rendered (c : Conversion) : Int := if c.precision < 0 then 1 else c.precision

/-- The buffer of `format_integer`. -/
def fillBuffer (value : UInt64) (b : IntegerBase) (c : Conversion) : Except Fault (List UInt8) := do
  let buf ← digitsLoop b c.flags.group 65 value.toNat 0 []
  let buf ← zerosLoop c.rendered 65 buf
  if c.flags.pound ∧ b.base = 8 ∧ buf.head? ≠ some (ch '0') then push buf (ch '0') else .ok buf

/-- `output_dup`. -/
def outputDup (c : UInt8) (cnt : Int) : List UInt8 := List.replicate cnt.toNat c

/-- `format_integer`. -/
def formatInteger (value : UInt64) (isSigned negative : Bool) (b : IntegerBase) (c : Conversion) :
    Except Fault (List UInt8) := do
  let sign := (signOf isSigned negative c.flags).toList
  let x := xOf value b c.flags
  let buf ← fillBuffer value b c
  let padCnt := toInt (c.width - buf.length - (if x ≠ 0 then 2 else 0) - sign.length)
  .ok ((if c.flags.minus = false ∧ c.flags.zero = false then outputDup (ch ' ') padCnt else []) ++
    sign ++ (if x ≠ 0 then [ch '0', x] else []) ++
    (if c.flags.zero then outputDup (ch '0') padCnt else []) ++ buf ++
    (if c.flags.minus then outputDup (ch ' ') padCnt else []))

/-- `format_string`. -/
def formatString (string : List UInt8) (c : Conversion) : List UInt8 :=
  let length := (string.length : Int)
  (if length < c.width ∧ c.flags.minus = false then outputDup (ch ' ') (c.width - length) else []) ++
    string ++
    (if length < c.width ∧ c.flags.minus then outputDup (ch ' ') (c.width - length) else [])

/-! ### `__vprintf` -/

/-- The argument of a signed conversion. -/
def signedValue (a : Arg) : Size → Int
  | .char => Int.bmod a.word.toNat (2 ^ 8)
  | .short => Int.bmod a.word.toNat (2 ^ 16)
  | .int => a.int
  | .intmax => Int.bmod a.dword.toNat (2 ^ 64)
  | .long => a.int
  | .longlong => Int.bmod a.dword.toNat (2 ^ 64)
  | .ptrdifft => a.int
  | .sizet =>
      if a.word.toNat > (2 ^ 32 - 1) / 2 then (a.word.toNat : Int) - (2 ^ 32 - 1) - 1
      else a.word.toNat

/-- The argument of an unsigned conversion. -/
def unsignedValue (a : Arg) : Size → UInt64
  | .char => a.word.toUInt8.toUInt64
  | .short => a.word.toUInt16.toUInt64
  | .int => a.word.toUInt64
  | .intmax => a.dword
  | .long => a.word.toUInt64
  | .longlong => a.dword
  | .ptrdifft => a.word.toUInt64
  | .sizet => a.word.toUInt64

/-- The cases `'d'` and `'i'`. -/
def formatSigned (value : Int) (c : Conversion) : Except Fault (List UInt8) :=
  formatInteger (UInt64.ofInt (if value < 0 then -value else value)) true (value < 0) baseD c

/-- `"(null)"`. -/
def nullString : List UInt8 := [40, 110, 117, 108, 108, 41]

/-- `DEFAULT_FLOAT_PRECISION` and `MAX_FLOAT_PRECISION` for the precision of the case `'f'`. -/
def floatPrecision (precision : Int) : Int :=
  let precision := if precision < 0 then 6 else precision
  if precision > 9 then 9 else precision

/-- The case `'f'`. -/
def formatDouble (d : Double) (c : Conversion) : Except Fault (List UInt8) := do
  let precision := floatPrecision c.precision
  let rest := d.rest precision.toNat
  let whole ← formatInteger (UInt64.ofInt (if d.first < 0 then toInt (-d.first) else d.first)) true
    d.negative baseD { c with precision := -1 }
  let fraction ← formatInteger (UInt64.ofInt (if rest < 0 then toInt (-rest) else rest)) false false
    baseD { c with precision := if precision = 0 then 1 else precision }
  .ok (whole ++ [ch '.'] ++ fraction)

/-- `"<<no %%%c in kernel>>"`. -/
def noKernel : List UInt8 :=
  [60, 60, 110, 111, 32, 37, 37, 37, 99, 32, 105, 110, 32, 107, 101, 114, 110, 101, 108, 62, 62, 0]

/-- `"<<no %%%c conversion>>"`. -/
def noConversion : List UInt8 :=
  [60, 60, 110, 111, 32, 37, 37, 37, 99, 32, 99, 111, 110, 118, 101, 114, 115, 105, 111, 110, 62, 62, 0]

/-- The `switch` of `__vprintf`; `print` is `__printf` with one argument. -/
def convert (print : List UInt8 → UInt8 → Except Fault (List UInt8)) (c : Conversion) (f : UInt8)
    (args : Args) : Except Fault (List UInt8 × Args) :=
  let a := (vaArg args).1
  let rest := (vaArg args).2
  if f = ch 'd' ∨ f = ch 'i' then (formatSigned (signedValue a c.type) c).map (·, rest)
  else if f = ch 'o' then
    (formatInteger (unsignedValue a c.type) false false baseO c).map (·, rest)
  else if f = ch 'u' then
    (formatInteger (unsignedValue a c.type) false false baseD c).map (·, rest)
  else if f = ch 'x' then
    (formatInteger (unsignedValue a c.type) false false baseSmallX c).map (·, rest)
  else if f = ch 'X' then
    (formatInteger (unsignedValue a c.type) false false baseX c).map (·, rest)
  else if f = ch 'c' then .ok (formatString [a.word.toUInt8] c, rest)
  else if f = ch 's' then
    let s := a.string.getD nullString
    .ok (formatString (if c.precision < 0 then s else s.take c.precision.toNat) c, rest)
  else if f = ch 'p' then
    let flags : Flags := ⟨false, false, false, true, false, false⟩
    (formatInteger a.word.toUInt64 false false baseSmallX { c with flags }).map (·, rest)
  else if f = ch 'f' then (formatDouble a.double c).map (·, rest)
  else if f = ch 'e' ∨ f = ch 'E' ∨ f = ch 'g' ∨ f = ch 'G' ∨ f = ch 'n' then
    (print noKernel f).map (·, args)
  else (print noConversion f).map (·, args)

/-- The loop of `__vprintf`, with a bound on its rounds. -/
def vprintfLoop (print : List UInt8 → UInt8 → Except Fault (List UInt8)) :
    Nat → List UInt8 → Args → Except Fault (List UInt8)
  | 0, _, _ => .error .rounds
  | rounds + 1, format, args => do
      let c ← peek format
      if c = 0 then .ok []
      else if c ≠ ch '%' then .ok (c :: (← vprintfLoop print rounds format.tail args))
      else
        let format := format.tail
        if (← peek format) = ch '%' then
          .ok (ch '%' :: (← vprintfLoop print rounds format.tail args))
        else
          let (conversion, format, args) ← parseConversion format args
          let (out, args) ← convert print conversion (← peek format) args
          .ok (out ++ (← vprintfLoop print rounds format.tail args))

/-- The one argument of an error message: `*format` as an `int`. -/
def charArg (c : UInt8) : Args :=
  fun _ => ⟨c.toInt8.toInt32.toUInt32, 0, none, ⟨0, fun _ => 0, false⟩⟩

/-- `__printf` with an error message. The message has no conversion but `%c`. -/
def printError (format : List UInt8) (c : UInt8) : Except Fault (List UInt8) :=
  vprintfLoop (fun _ _ => .error .rounds) (format.length + 1) format (charArg c)

/-- `__vprintf`. -/
def vprintf (format : List UInt8) (args : Args) : Except Fault (List UInt8) :=
  vprintfLoop printError (format.length + 1) format args

end OsTools.Stdlib.Printf

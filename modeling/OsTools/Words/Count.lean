import Mathlib.Algebra.Group.Int.Defs
import Mathlib.Algebra.Group.Nat.Defs
import Mathlib.Logic.Function.Basic
import OsTools.Lib.Except
import OsTools.Lib.Runs
/-!
# OsTools.Words.Count

The word counter of `hw-intro/words`: `num_words` and `count_words` of `main.c`, with the
list of `word_count.c` that the words go into.

A stream is the bytes that `fgetc` is going to return. `char` is signed, so that a byte
from 128 on is a negative number. The loop of `find_word` has a bound on its rounds; it
does not move on from the word that it is looking for, and no bound is enough then.
-/

namespace OsTools.Words

/-- `EOF`. -/
def EOF : Int := -1

/-- `MAX_WORD_LEN`. -/
def MAX_WORD_LEN : Nat := 64

/-- `(char) c`. -/
def toChar (c : Int) : Int := Int.bmod c 256

/-- `isalpha`, in the C locale. -/
def isalpha (c : Int) : Bool := (65 ≤ c ∧ c ≤ 90) ∨ (97 ≤ c ∧ c ≤ 122)

/-- `tolower`. -/
def tolower (c : Int) : Int := if 65 ≤ c ∧ c ≤ 90 then c + 32 else c

/-- `n` as the value of an `int`. -/
def toInt (n : Int) : Int := Int.bmod n (2 ^ 32)

/-! ### The list of words -/

/-- `struct word_count`. A list of them is a list here. -/
structure WordCount where
  word : List Int
  count : Int
  deriving DecidableEq

/-- The loop of `find_word`, with `wchead` at the entry number `i`. It does not move on when
the words are equal. -/
def findWordLoop (l : List WordCount) (word : List Int) :
    Nat → Nat → Option Nat → Option (Option Nat)
  | 0, _, _ => none
  | rounds + 1, i, wc =>
      match l[i]? with
      | none => some wc
      | some e =>
          if e.word ≠ word then findWordLoop l word rounds (i + 1) wc
          else findWordLoop l word rounds i (some i)

/-- `find_word`. -/
def findWord (rounds : Nat) (l : List WordCount) (word : List Int) : Option (Option Nat) :=
  findWordLoop l word rounds 0 none

/-- `add_word`. -/
def addWord (rounds : Nat) (l : List WordCount) (word : List Int) : Option (List WordCount) :=
  match findWord rounds l word with
  | none => none
  | some (some i) => some (l.modify i fun e => { e with count := toInt (e.count + 1) })
  | some none => some (⟨word, 1⟩ :: l)

/-! ### The counters -/

/-- The loop of `num_words`, from the next `fgetc` on. -/
def numWordsLoop : List UInt8 → Nat → Int → Int
  | [], _, numWords => numWords
  | b :: s, state, numWords =>
      let c := toChar b.toNat
      if c = EOF then numWords
      else if state = 0 then
        if isalpha c then numWordsLoop s 1 numWords else numWordsLoop s state numWords
      else if state = 1 then
        if isalpha c then numWordsLoop s 2 (toInt (numWords + 1))
        else numWordsLoop s state numWords
      else if state = 2 then
        if isalpha c then numWordsLoop s state numWords else numWordsLoop s 0 numWords
      else numWordsLoop s state numWords

/-- `num_words`. -/
def numWords (s : List UInt8) : Int := numWordsLoop s 0 0

/-- How `count_words` ends: it returns, it is in `find_word` still, or it has written
outside of the buffer. -/
inductive Ending
  | returned
  | looping
  | fault
  deriving DecidableEq

/-- The words passed to `add_word`, and the end. -/
structure Trace where
  passed : List (List Int)
  ending : Ending
  deriving DecidableEq

/-- The variables of `count_words`. -/
structure State where
  word : Nat → Int
  index : Nat
  state : Nat
  wclist : List WordCount
  passed : List (List Int)

/-- `word[index] = c`. The buffer has `MAX_WORD_LEN + 1` bytes. -/
def storeChar (st : State) (c : Int) : Except Trace State :=
  if st.index < MAX_WORD_LEN + 1 then
    .ok { st with word := Function.update st.word st.index c }
  else .error ⟨st.passed, .fault⟩

/-- The string in the buffer. -/
def cString (word : Nat → Int) : List Int :=
  ((List.range (MAX_WORD_LEN + 1)).map word).takeWhile (· ≠ 0)

/-- `word[index] = '\0'; add_word (wclist, word)`. -/
def passWord (rounds : Nat) (st : State) : Except Trace State := do
  let st ← storeChar st 0
  let word := cString st.word
  match addWord rounds st.wclist word with
  | none => .error ⟨st.passed ++ [word], .looping⟩
  | some l => .ok { st with wclist := l, passed := st.passed ++ [word] }

/-- The body of the loop of `count_words`. -/
def countWordsStep (rounds : Nat) (c : Int) (st : State) : Except Trace State :=
  if st.state = 0 then
    if isalpha c then do
      let st ← storeChar st (tolower c)
      .ok { st with state := 1, index := st.index + 1 }
    else .ok st
  else if st.state = 1 then
    if isalpha c then do
      let st ← storeChar st (tolower c)
      .ok { st with state := 2, index := st.index + 1 }
    else .ok { st with index := 0 }
  else if st.state = 2 then
    if isalpha c then do
      let st ← storeChar st (tolower c)
      .ok { st with index := st.index + 1 }
    else do
      let st ← passWord rounds st
      .ok { st with index := 0, state := 0 }
  else .ok st

/-- The loop of `count_words`, from the next `fgetc` on. -/
def countWordsLoop (rounds : Nat) : List UInt8 → State → Except Trace State
  | [], st => .ok st
  | b :: s, st =>
      let c := toChar b.toNat
      if c = EOF then .ok st
      else do
        let st ← countWordsStep rounds c st
        countWordsLoop rounds s st

/-- What follows the loop. -/
def lastWord (rounds : Nat) (st : State) : Except Trace State :=
  if st.state = 2 then passWord rounds st else .ok st

/-- `count_words`; `junk` is what is in the buffer that `malloc` returns. -/
def countWords (rounds : Nat) (junk : Nat → Int) (wclist : List WordCount) (s : List UInt8) :
    Trace :=
  match (do lastWord rounds (← countWordsLoop rounds s ⟨junk, 0, 0, wclist, []⟩)) with
  | .ok st => ⟨st.passed, .returned⟩
  | .error trace => trace

end OsTools.Words

import Mathlib.Algebra.Group.Nat.Defs
import Mathlib.Data.List.Basic
import Mathlib.Data.List.TakeWhile
import Mathlib.Logic.Function.Basic
import OsTools.Lib.Except
import OsTools.Lib.Runs
/-!
# OsTools.Shell.Tokenizer

`tokenize` of `hw-shell/tokenizer.c`, with the array that it collects a word in. A line
is the characters that `fgets` has stored before the terminating null.

`lineWords` says what the words of a line are: what is left of its characters when
quotes and backslashes are taken away, cut at the white space outside of quotes.
`tokenize` returns the words, or aborts on a line of 4095 plain characters
(`tokenize_eq`).

The index of the loop is an `unsigned int`. On a line of less than 2³² characters the
loop reads one character after the other, and `readRest`, which is over the characters
that are left, is what the proofs are about (`tokenizeLoop_eq`). On a longer line the
index goes round and the loop never ends (`tokenizeLoop_endless`).

## Proof shape

A line is read twice here: by the loop, character by character with a mode, and by `items`,
which takes the quotes and backslashes away and leaves the runs of literal characters to
`wordsOf`. `Round` has the four things that a round can do (collect a character, end a word,
change the mode, nothing), for all three modes, and `reads` is the induction with the word
collected so far (`Collected`). The check of the length is apart: `Reads` is for lines that
are too short to fail it, and the one length for which it may fail is treated by
`finish_full`.
-/

namespace OsTools.Shell

/-- What goes wrong in the shell: a call of `abort`, an index outside of an array, or a
loop that does not end. -/
inductive Violation
  | aborted
  | outOfBounds
  | endless
  deriving DecidableEq

/-- `isspace`, in the C locale. -/
def isspace (c : UInt8) : Bool := c = 32 ∨ (9 ≤ c ∧ c ≤ 13)

def SQUOTE : UInt8 := 39

def DQUOTE : UInt8 := 34

def BACKSLASH : UInt8 := 92

/-- `MODE_NORMAL`, `MODE_SQUOTE`, `MODE_DQUOTE`. -/
inductive Mode
  | normal
  | squote
  | dquote
  deriving DecidableEq

/-- `n_max`, the size of `token`. -/
def nMax : Nat := 4096

/-- The variables of `tokenize`. -/
structure Scan where
  token : Nat → UInt8
  n : Nat
  tokens : List (List UInt8)

/-- `token[n++] = c`. -/
def putChar (s : Scan) (c : UInt8) : Except Violation Scan :=
  if s.n < nMax then .ok { s with token := Function.update s.token s.n c, n := s.n + 1 }
  else .error .outOfBounds

/-- `copy_word (token, n)`, pushed onto the tokens. -/
def pushWord (s : Scan) : Except Violation Scan :=
  if s.n < nMax then
    let token := Function.update s.token s.n 0
    let word := ((List.range (s.n + 1)).map token).takeWhile (· ≠ 0)
    .ok { token := token, n := 0, tokens := s.tokens ++ [word] }
  else .error .outOfBounds

/-- `if (n > 0)`: a word ends. -/
def endWord (s : Scan) : Except Violation Scan := if s.n > 0 then pushWord s else .ok s

/-- The check at the end of the loop body. -/
def checkLength (s : Scan) : Except Violation Scan :=
  if s.n + 1 ≥ nMax then .error .aborted else .ok s

/-- A backslash takes the next character with it, if there is one:
`if (i + 1 < line_length) token[n++] = line[++i]`. -/
def putNext (line : List UInt8) (i : Nat) (s : Scan) : Except Violation (Nat × Scan) :=
  let next := (i + 1) % 2 ^ 32
  if next < line.length then do
    let s ← putChar s (line.getD next 0)
    .ok (next, s)
  else .ok (i, s)

/-- The loop body, before the check at its end. -/
def tokenizeBody (line : List UInt8) (i : Nat) (mode : Mode) (s : Scan) :
    Except Violation (Nat × Mode × Scan) :=
  let c := line.getD i 0
  match mode with
  | .normal =>
      if c = SQUOTE then .ok (i, .squote, s)
      else if c = DQUOTE then .ok (i, .dquote, s)
      else if c = BACKSLASH then do
        let (i, s) ← putNext line i s
        .ok (i, .normal, s)
      else if isspace c then do
        let s ← endWord s
        .ok (i, .normal, s)
      else do
        let s ← putChar s c
        .ok (i, .normal, s)
  | .squote =>
      if c = SQUOTE then .ok (i, .normal, s)
      else if c = BACKSLASH then do
        let (i, s) ← putNext line i s
        .ok (i, .squote, s)
      else do
        let s ← putChar s c
        .ok (i, .squote, s)
  | .dquote =>
      if c = DQUOTE then .ok (i, .normal, s)
      else if c = BACKSLASH then do
        let (i, s) ← putNext line i s
        .ok (i, .dquote, s)
      else do
        let s ← putChar s c
        .ok (i, .dquote, s)

/-- The loop of `tokenize`, for a number of rounds. The index `i` is an `unsigned int`. -/
def tokenizeLoop (line : List UInt8) : Nat → Nat → Mode → Scan → Except Violation Scan
  | 0, _, _, _ => .error .endless
  | fuel + 1, i, mode, s =>
      if i < line.length then do
        let (i, mode, s) ← tokenizeBody line i mode s
        let s ← checkLength s
        tokenizeLoop line fuel ((i + 1) % 2 ^ 32) mode s
      else .ok s

/-- `tokenize`. A loop that ends takes a round for each character at most. -/
def tokenize (line : List UInt8) : Except Violation (List (List UInt8)) := do
  let s ← tokenizeLoop line (line.length + 1) 0 .normal ⟨fun _ => 0, 0, []⟩
  let s ← endWord s
  .ok s.tokens

/-! ### The index of the loop -/

/-- The loop over the characters that are left. A backslash takes the next character with
it, if there is one. -/
def readRest : List UInt8 → Mode → Scan → Except Violation Scan
  | [], _, s => .ok s
  | c :: rest, .normal, s =>
      if c = SQUOTE then do
        let s ← checkLength s
        readRest rest .squote s
      else if c = DQUOTE then do
        let s ← checkLength s
        readRest rest .dquote s
      else if c = BACKSLASH then
        match rest with
        | [] => checkLength s
        | d :: rest => do
            let s ← putChar s d
            let s ← checkLength s
            readRest rest .normal s
      else if isspace c then do
        let s ← endWord s
        let s ← checkLength s
        readRest rest .normal s
      else do
        let s ← putChar s c
        let s ← checkLength s
        readRest rest .normal s
  | c :: rest, .squote, s =>
      if c = SQUOTE then do
        let s ← checkLength s
        readRest rest .normal s
      else if c = BACKSLASH then
        match rest with
        | [] => checkLength s
        | d :: rest => do
            let s ← putChar s d
            let s ← checkLength s
            readRest rest .squote s
      else do
        let s ← putChar s c
        let s ← checkLength s
        readRest rest .squote s
  | c :: rest, .dquote, s =>
      if c = DQUOTE then do
        let s ← checkLength s
        readRest rest .normal s
      else if c = BACKSLASH then
        match rest with
        | [] => checkLength s
        | d :: rest => do
            let s ← putChar s d
            let s ← checkLength s
            readRest rest .dquote s
      else do
        let s ← putChar s c
        let s ← checkLength s
        readRest rest .dquote s

section Index

variable {line rest : List UInt8} {i : Nat} {c : UInt8}

/-- The index never gets to the end of a line that is longer than it can count. -/
theorem tokenizeLoop_endless (hline : 2 ^ 32 ≤ line.length) (fuel : Nat) {i : Nat} (hi : i < 2 ^ 32)
    (mode : Mode) (s s' : Scan) : tokenizeLoop line fuel i mode s ≠ .ok s' := by
  induction fuel generalizing i mode s with
  | zero => exact nofun
  | succ fuel ih =>
      intro h
      rw [tokenizeLoop, if_pos (by omega)] at h
      obtain ⟨⟨i', mode', s₁⟩, -, h⟩ := bind_eq_ok h
      obtain ⟨s₂, -, h⟩ := bind_eq_ok h
      exact ih (Nat.mod_lt _ (by decide)) mode' s₂ h

theorem drop_cons (h : line.drop i = c :: rest) :
    line.length = i + 1 + rest.length ∧ line.getD i 0 = c ∧ line.drop (i + 1) = rest := by
  refine ⟨?_, ?_, ?_⟩
  · have hlength := congrArg List.length h
    rw [List.length_drop, List.length_cons] at hlength
    omega
  · rw [List.getD_eq_getElem?_getD, ← Nat.add_zero i, ← List.getElem?_drop, h]
    rfl
  · rw [← List.drop_drop, h]
    rfl

/-- A backslash at the end of the line. -/
theorem putNext_last (hline : line.length < 2 ^ 32) (h : line.drop i = [c]) (s : Scan) :
    putNext line i s = .ok (i, s) := by
  have hlength := (drop_cons h).1
  rw [List.length_nil] at hlength
  unfold putNext
  dsimp only
  rw [Nat.mod_eq_of_lt (by omega), if_neg (by omega)]

/-- A backslash with a character behind it. -/
theorem putNext_cons {d : UInt8} (hline : line.length < 2 ^ 32) (h : line.drop i = c :: d :: rest)
    (s : Scan) : putNext line i s = putChar s d >>= fun s => .ok (i + 1, s) := by
  obtain ⟨hlength, -, hrest⟩ := drop_cons h
  rw [List.length_cons] at hlength
  unfold putNext
  dsimp only
  rw [Nat.mod_eq_of_lt (by omega), if_pos (by omega), (drop_cons hrest).2.1]

/-- A round of the loop, where `rest` is read as it is behind the character. A backslash is
left to `hback`. -/
theorem readRest_of_round {k : Nat} {s : Scan} (hget : line.getD i 0 = c)
    (hnext : ∀ mode, tokenizeLoop line k ((i + 1) % 2 ^ 32) mode = readRest rest mode)
    (hback : c = BACKSLASH → ∀ mode, (putNext line i s >>= fun r =>
      checkLength r.2 >>= tokenizeLoop line k ((r.1 + 1) % 2 ^ 32) mode) =
        readRest (c :: rest) mode s)
    (mode : Mode) :
    (tokenizeBody line i mode s >>= fun r =>
      checkLength r.2.2 >>= tokenizeLoop line k ((r.1 + 1) % 2 ^ 32) r.2.1) =
      readRest (c :: rest) mode s := by
  unfold tokenizeBody
  dsimp only
  rw [hget]
  cases mode with
  | normal =>
      dsimp only
      by_cases hsquote : c = SQUOTE
      · rw [readRest.eq_def]
        dsimp only
        rw [if_pos hsquote, if_pos hsquote, ok_bind, hnext]
      by_cases hdquote : c = DQUOTE
      · rw [readRest.eq_def]
        dsimp only
        rw [if_neg hsquote, if_neg hsquote, if_pos hdquote, if_pos hdquote, ok_bind, hnext]
      by_cases hslash : c = BACKSLASH
      · rw [if_neg hsquote, if_neg hdquote, if_pos hslash, ← hback hslash]
        cases putNext line i s <;> rfl
      rw [readRest.eq_def]
      dsimp only
      rw [if_neg hsquote, if_neg hsquote, if_neg hdquote, if_neg hdquote, if_neg hslash,
        if_neg hslash, ← hnext]
      by_cases hspace : isspace c = true
      · rw [if_pos hspace, if_pos hspace]
        cases endWord s <;> rfl
      · rw [if_neg hspace, if_neg hspace]
        cases putChar s c <;> rfl
  | squote =>
      dsimp only
      by_cases hsquote : c = SQUOTE
      · rw [readRest.eq_def]
        dsimp only
        rw [if_pos hsquote, if_pos hsquote, ok_bind, hnext]
      by_cases hslash : c = BACKSLASH
      · rw [if_neg hsquote, if_pos hslash, ← hback hslash]
        cases putNext line i s <;> rfl
      rw [readRest.eq_def]
      dsimp only
      rw [if_neg hsquote, if_neg hsquote, if_neg hslash, if_neg hslash, ← hnext]
      cases putChar s c <;> rfl
  | dquote =>
      dsimp only
      by_cases hdquote : c = DQUOTE
      · rw [readRest.eq_def]
        dsimp only
        rw [if_pos hdquote, if_pos hdquote, ok_bind, hnext]
      by_cases hslash : c = BACKSLASH
      · rw [if_neg hdquote, if_pos hslash, ← hback hslash]
        cases putNext line i s <;> rfl
      rw [readRest.eq_def]
      dsimp only
      rw [if_neg hdquote, if_neg hdquote, if_neg hslash, if_neg hslash, ← hnext]
      cases putChar s c <;> rfl

/-- The loop reads the characters of the line in order, as long as the index does not wrap
around. By induction on the rounds; a round takes one character, or two where the first one is
a backslash. -/
theorem tokenizeLoop_eq (hline : line.length < 2 ^ 32) {fuel : Nat} (hi : i ≤ line.length)
    (hfuel : line.length - i < fuel) (mode : Mode) (s : Scan) :
    tokenizeLoop line fuel i mode s = readRest (line.drop i) mode s := by
  induction fuel generalizing i mode s with
  | zero => omega
  | succ fuel ih =>
      rw [tokenizeLoop]
      cases hdrop : line.drop i with
      | nil =>
          rw [if_neg (Nat.not_lt.mpr (List.drop_eq_nil_iff.mp hdrop))]
          cases mode <;> rfl
      | cons c rest =>
          obtain ⟨hlength, hget, hrest⟩ := drop_cons hdrop
          -- the next round, behind one character
          have hnext : ∀ mode, tokenizeLoop line fuel ((i + 1) % 2 ^ 32) mode = readRest rest mode := by
            intro mode
            funext s
            rw [Nat.mod_eq_of_lt (by omega), ih (by omega) (by omega), hrest]
          rw [if_pos (by omega)]
          refine readRest_of_round hget hnext (fun hc mode => ?_) mode
          -- a backslash, and the next round behind two characters
          subst hc
          cases rest with
          | nil =>
              have hend : readRest [] mode = .ok := by
                funext s
                cases mode <;> rfl
              have hlast : readRest [BACKSLASH] mode s = checkLength s := by cases mode <;> rfl
              rw [putNext_last hline hdrop, ok_bind, hnext, hend, hlast]
              cases checkLength s <;> rfl
          | cons d later =>
              rw [List.length_cons] at hlength
              have htwo : readRest (BACKSLASH :: d :: later) mode s =
                  putChar s d >>= fun s => checkLength s >>= readRest later mode := by
                cases mode <;> rfl
              have hlater : tokenizeLoop line fuel ((i + 1 + 1) % 2 ^ 32) mode =
                  readRest later mode := by
                funext s
                rw [Nat.mod_eq_of_lt (by omega), ih (by omega) (by omega), (drop_cons hrest).2.2]
              rw [putNext_cons hline hdrop, htwo]
              cases putChar s d with
              | error e => rfl
              | ok s₁ => rw [ok_bind, ok_bind, ok_bind, hlater]

end Index

/-! ### The words of a line -/

/-- What a character of a line stands for. -/
inductive Item
  | separator
  | literal (c : UInt8)

def Item.isLiteral : Item → Bool
  | .separator => false
  | .literal _ => true

def Item.char : Item → UInt8
  | .separator => 0
  | .literal c => c

/-- The characters of a line with the quotes and backslashes taken away. -/
def items : Mode → List UInt8 → List Item
  | _, [] => []
  | .normal, c :: rest =>
      if c = SQUOTE then items .squote rest
      else if c = DQUOTE then items .dquote rest
      else if c = BACKSLASH then
        match rest with
        | [] => []
        | d :: rest => .literal d :: items .normal rest
      else if isspace c then .separator :: items .normal rest
      else .literal c :: items .normal rest
  | .squote, c :: rest =>
      if c = SQUOTE then items .normal rest
      else if c = BACKSLASH then
        match rest with
        | [] => []
        | d :: rest => .literal d :: items .squote rest
      else .literal c :: items .squote rest
  | .dquote, c :: rest =>
      if c = DQUOTE then items .normal rest
      else if c = BACKSLASH then
        match rest with
        | [] => []
        | d :: rest => .literal d :: items .dquote rest
      else .literal c :: items .dquote rest

/-- The runs of literal characters. -/
def wordsOf (l : List Item) : List (List UInt8) :=
  (runs Item.isLiteral l).map fun r => r.map Item.char

/-- The words of a line. -/
def lineWords (line : List UInt8) : List (List UInt8) := wordsOf (items .normal line)

/-- A character that stands for itself outside of quotes. -/
def Plain (c : UInt8) : Prop := c ≠ SQUOTE ∧ c ≠ DQUOTE ∧ c ≠ BACKSLASH ∧ isspace c = false

section Words

variable {w : List UInt8} {l : List Item}

theorem literals (w : List UInt8) : ∀ i ∈ w.map Item.literal, i.isLiteral = true := by
  intro i hi
  obtain ⟨c, -, rfl⟩ := List.mem_map.mp hi
  rfl

theorem map_char_literal (w : List UInt8) : (w.map Item.literal).map Item.char = w := by
  rw [List.map_map]
  exact List.map_id w

theorem wordsOf_literals (hne : w ≠ []) : wordsOf (w.map .literal) = [w] := by
  unfold wordsOf
  rw [runs_all (literals w) (by simpa using hne), List.map_singleton, map_char_literal]

theorem wordsOf_cons_separator (l : List Item) : wordsOf (.separator :: l) = wordsOf l := by
  unfold wordsOf
  rw [runs_cons rfl]

theorem wordsOf_separator (hne : w ≠ []) (l : List Item) :
    wordsOf (w.map .literal ++ .separator :: l) = w :: wordsOf l := by
  unfold wordsOf
  rw [runs_run (literals w) (by simpa using hne) rfl, List.map_cons, map_char_literal]

end Words

/-! ### The loop -/

section Loop

variable {s : Scan} {w rest : List UInt8} {c : UInt8} {mode : Mode}

/-- `token` holds the part `w` of a word. -/
structure Collected (s : Scan) (w : List UInt8) : Prop where
  n : s.n = w.length
  token : ∀ i (h : i < w.length), s.token i = w[i]
  nonzero : ∀ c ∈ w, c ≠ 0

theorem collected_nil (h : s.n = 0) : Collected s [] :=
  ⟨h, fun _ h => absurd h (Nat.not_lt_zero _), fun _ h => absurd h List.not_mem_nil⟩

/-- One more character. -/
theorem Collected.put (h : Collected s w) (hc : c ≠ 0) (hlen : w.length < nMax) :
    ∃ s', putChar s c = .ok s' ∧ Collected s' (w ++ [c]) ∧ s'.tokens = s.tokens := by
  unfold putChar
  rw [h.n, if_pos hlen]
  refine ⟨_, rfl, ⟨?_, fun i hi => ?_, fun d hd => ?_⟩, rfl⟩
  · rw [List.length_append, List.length_singleton]
  · dsimp only
    by_cases hlt : i < w.length
    · rw [Function.update_of_ne (by omega), h.token i hlt, List.getElem_append_left hlt]
    · have heq : i = w.length := by
        rw [List.length_append, List.length_singleton] at hi
        omega
      subst heq
      rw [Function.update_self, List.getElem_concat_length rfl]
  · rcases List.mem_append.mp hd with hd | hd
    · exact h.nonzero d hd
    · rw [List.mem_singleton.mp hd]
      exact hc

/-- The end of a word. -/
theorem Collected.push (h : Collected s w) (hlen : w.length < nMax) :
    ∃ s', pushWord s = .ok s' ∧ s'.n = 0 ∧ s'.tokens = s.tokens ++ [w] := by
  have hmap : (List.range (w.length + 1)).map (Function.update s.token w.length 0) = w ++ [0] := by
    rw [List.range_succ, List.map_append, List.map_singleton, Function.update_self]
    congr 1
    refine List.ext_getElem (by simp) fun i h₁ h₂ => ?_
    rw [List.getElem_map, List.getElem_range, Function.update_of_ne (by omega), h.token i h₂]
  have hword : (w ++ [0]).takeWhile (· ≠ 0) = w := by
    rw [List.takeWhile_append_of_pos fun c hc => by simpa using h.nonzero c hc,
      List.takeWhile_cons_of_neg (by simp), List.append_nil]
  unfold pushWord
  rw [h.n, if_pos hlen]
  refine ⟨_, rfl, rfl, ?_⟩
  dsimp only
  rw [hmap, hword]

/-- What follows the loop. -/
def finish (r : Except Violation Scan) : Except Violation (List (List UInt8)) := do
  let s ← r
  let s ← endWord s
  .ok s.tokens

theorem finish_ok (h : Collected s w) (hlen : w.length < nMax) :
    finish (.ok s) = .ok (s.tokens ++ wordsOf (w.map .literal)) := by
  unfold finish endWord
  rw [ok_bind, h.n]
  by_cases hne : w = []
  · subst hne
    rw [if_neg (by simp), ok_bind]
    simp [wordsOf]
  · obtain ⟨s', hpush, -, htokens⟩ := h.push hlen
    rw [if_pos (List.length_pos_iff.mpr hne), hpush, ok_bind]
    show Except.ok s'.tokens = _
    rw [htokens, wordsOf_literals hne]

theorem checkLength_ok (h : Collected s w) (hlen : w.length + 1 < nMax) :
    checkLength s = .ok s := by
  unfold checkLength
  rw [h.n, if_neg (by omega)]

/-- On a line that is short of a character the loop does not abort. -/
def Reads (mode : Mode) (rest : List UInt8) : Prop :=
  ∀ s w, Collected s w → (∀ c ∈ rest, c ≠ 0) → w.length + rest.length + 1 < nMax →
    finish (readRest rest mode s) =
      .ok (s.tokens ++ wordsOf (w.map .literal ++ items mode rest))

/-- A literal character. -/
theorem Reads.put (hrest : Reads mode rest) (h : Collected s w) (hc : c ≠ 0)
    (hnull : ∀ c ∈ rest, c ≠ 0) (hlen : w.length + rest.length + 2 < nMax) :
    finish (putChar s c >>= fun s => checkLength s >>= readRest rest mode) =
      .ok (s.tokens ++ wordsOf (w.map .literal ++ .literal c :: items mode rest)) := by
  obtain ⟨s', hput, h', htokens⟩ := h.put hc (by omega)
  have hlen' : (w ++ [c]).length = w.length + 1 := by simp
  rw [hput, ok_bind, checkLength_ok h' (by omega), ok_bind, hrest s' _ h' hnull (by omega), htokens,
    List.map_append, List.append_assoc]
  rfl

/-- White space. -/
theorem Reads.space (hrest : Reads .normal rest) (h : Collected s w)
    (hnull : ∀ c ∈ rest, c ≠ 0) (hw : w.length + 1 < nMax) (hlen : rest.length + 1 < nMax) :
    finish (endWord s >>= fun s => checkLength s >>= readRest rest .normal) =
      .ok (s.tokens ++ wordsOf (w.map .literal ++ .separator :: items .normal rest)) := by
  unfold endWord
  by_cases hne : w = []
  · subst hne
    rw [h.n, if_neg (by simp), ok_bind, checkLength_ok h hw, ok_bind,
      hrest s [] h hnull (by simpa using hlen)]
    simp [wordsOf_cons_separator]
  · obtain ⟨s', hpush, hn, htokens⟩ := h.push (by omega)
    have h' := collected_nil hn
    rw [h.n, if_pos (List.length_pos_iff.mpr hne), hpush, ok_bind,
      checkLength_ok h' (by simp [nMax]), ok_bind,
      hrest s' [] h' hnull (by simpa using hlen), htokens, wordsOf_separator hne]
    simp

theorem reads_nil (mode : Mode) : Reads mode [] := by
  intro s w h _ hlen
  have hitems : items mode [] = [] := by cases mode <;> rfl
  have hloop : readRest [] mode s = .ok s := by cases mode <;> rfl
  rw [hloop, hitems, List.append_nil]
  exact finish_ok h (by simp at hlen; omega)

/-- What a round of the loop does, and which item it reads. -/
inductive Round (mode : Mode) (c : UInt8) (rest : List UInt8) : Prop
  /-- A quote is left out. -/
  | quote (mode' : Mode)
      (hloop : ∀ s, readRest (c :: rest) mode s = checkLength s >>= readRest rest mode')
      (hitems : items mode (c :: rest) = items mode' rest)
  /-- A backslash at the end of the line is left out. -/
  | lone (hloop : ∀ s, readRest (c :: rest) mode s = checkLength s)
      (hitems : items mode (c :: rest) = [])
  /-- A backslash takes the next character. -/
  | escape (d : UInt8) (later : List UInt8) (hrest : rest = d :: later)
      (hloop : ∀ s, readRest (c :: rest) mode s =
        putChar s d >>= fun s => checkLength s >>= readRest later mode)
      (hitems : items mode (c :: rest) = .literal d :: items mode later)
  | char (hplain : mode = .normal → Plain c)
      (hloop : ∀ s, readRest (c :: rest) mode s =
        putChar s c >>= fun s => checkLength s >>= readRest rest mode)
      (hitems : items mode (c :: rest) = .literal c :: items mode rest)
  | space (hmode : mode = .normal)
      (hloop : ∀ s, readRest (c :: rest) mode s =
        endWord s >>= fun s => checkLength s >>= readRest rest .normal)
      (hitems : items mode (c :: rest) = .separator :: items .normal rest)

/-- A round outside of quotes, by the kind of its character: a quote, a backslash, a
separator, or a part of a word. -/
theorem round_normal (c : UInt8) (rest : List UInt8) : Round .normal c rest := by
  by_cases hsquote : c = SQUOTE
  · refine .quote .squote (fun s => ?_) ?_
    · rw [readRest.eq_def]
      dsimp only
      rw [if_pos hsquote]
    · rw [items.eq_def]
      dsimp only
      rw [if_pos hsquote]
  by_cases hdquote : c = DQUOTE
  · refine .quote .dquote (fun s => ?_) ?_
    · rw [readRest.eq_def]
      dsimp only
      rw [if_neg hsquote, if_pos hdquote]
    · rw [items.eq_def]
      dsimp only
      rw [if_neg hsquote, if_pos hdquote]
  by_cases hback : c = BACKSLASH
  · cases rest with
    | nil =>
        refine .lone (fun s => ?_) ?_
        · rw [readRest.eq_def]
          dsimp only
          rw [if_neg hsquote, if_neg hdquote, if_pos hback]
        · rw [items.eq_def]
          dsimp only
          rw [if_neg hsquote, if_neg hdquote, if_pos hback]
    | cons d later =>
        refine .escape d later rfl (fun s => ?_) ?_
        · rw [readRest.eq_def]
          dsimp only
          rw [if_neg hsquote, if_neg hdquote, if_pos hback]
        · rw [items.eq_def]
          dsimp only
          rw [if_neg hsquote, if_neg hdquote, if_pos hback]
  by_cases hspace : isspace c = true
  · refine .space rfl (fun s => ?_) ?_
    · rw [readRest.eq_def]
      dsimp only
      rw [if_neg hsquote, if_neg hdquote, if_neg hback, if_pos hspace]
    · rw [items.eq_def]
      dsimp only
      rw [if_neg hsquote, if_neg hdquote, if_neg hback, if_pos hspace]
  · refine .char (fun _ => ⟨hsquote, hdquote, hback, by simpa using hspace⟩) (fun s => ?_) ?_
    · rw [readRest.eq_def]
      dsimp only
      rw [if_neg hsquote, if_neg hdquote, if_neg hback, if_neg hspace]
    · rw [items.eq_def]
      dsimp only
      rw [if_neg hsquote, if_neg hdquote, if_neg hback, if_neg hspace]

/-- A round within single quotes: the closing quote ends them, a backslash takes the next
character along, and all others are parts of the word. -/
theorem round_squote (c : UInt8) (rest : List UInt8) : Round .squote c rest := by
  by_cases hsquote : c = SQUOTE
  · refine .quote .normal (fun s => ?_) ?_
    · rw [readRest.eq_def]
      dsimp only
      rw [if_pos hsquote]
    · rw [items.eq_def]
      dsimp only
      rw [if_pos hsquote]
  by_cases hback : c = BACKSLASH
  · cases rest with
    | nil =>
        refine .lone (fun s => ?_) ?_
        · rw [readRest.eq_def]
          dsimp only
          rw [if_neg hsquote, if_pos hback]
        · rw [items.eq_def]
          dsimp only
          rw [if_neg hsquote, if_pos hback]
    | cons d later =>
        refine .escape d later rfl (fun s => ?_) ?_
        · rw [readRest.eq_def]
          dsimp only
          rw [if_neg hsquote, if_pos hback]
        · rw [items.eq_def]
          dsimp only
          rw [if_neg hsquote, if_pos hback]
  · refine .char nofun (fun s => ?_) ?_
    · rw [readRest.eq_def]
      dsimp only
      rw [if_neg hsquote, if_neg hback]
    · rw [items.eq_def]
      dsimp only
      rw [if_neg hsquote, if_neg hback]

/-- A round within double quotes, by the same cases. -/
theorem round_dquote (c : UInt8) (rest : List UInt8) : Round .dquote c rest := by
  by_cases hdquote : c = DQUOTE
  · refine .quote .normal (fun s => ?_) ?_
    · rw [readRest.eq_def]
      dsimp only
      rw [if_pos hdquote]
    · rw [items.eq_def]
      dsimp only
      rw [if_pos hdquote]
  by_cases hback : c = BACKSLASH
  · cases rest with
    | nil =>
        refine .lone (fun s => ?_) ?_
        · rw [readRest.eq_def]
          dsimp only
          rw [if_neg hdquote, if_pos hback]
        · rw [items.eq_def]
          dsimp only
          rw [if_neg hdquote, if_pos hback]
    | cons d later =>
        refine .escape d later rfl (fun s => ?_) ?_
        · rw [readRest.eq_def]
          dsimp only
          rw [if_neg hdquote, if_pos hback]
        · rw [items.eq_def]
          dsimp only
          rw [if_neg hdquote, if_pos hback]
  · refine .char nofun (fun s => ?_) ?_
    · rw [readRest.eq_def]
      dsimp only
      rw [if_neg hdquote, if_neg hback]
    · rw [items.eq_def]
      dsimp only
      rw [if_neg hdquote, if_neg hback]

theorem round (mode : Mode) (c : UInt8) (rest : List UInt8) : Round mode c rest := by
  cases mode with
  | normal => exact round_normal c rest
  | squote => exact round_squote c rest
  | dquote => exact round_dquote c rest

/-- One round. There is room for one more character, or the character that comes is not
put into the word. -/
theorem reads_cons (ih : ∀ mode r, r.length ≤ rest.length → Reads mode r) (h : Collected s w)
    (hnull : ∀ x ∈ c :: rest, x ≠ 0) (hlen : w.length + rest.length + 1 < nMax)
    (hroom : w.length + rest.length + 2 < nMax ∨ (mode = .normal ∧ ¬ Plain c)) :
    finish (readRest (c :: rest) mode s) =
      .ok (s.tokens ++ wordsOf (w.map .literal ++ items mode (c :: rest))) := by
  have hnull' : ∀ x ∈ rest, x ≠ 0 := fun x hx => hnull x (List.mem_cons_of_mem _ hx)
  have hcheck := checkLength_ok h (by omega)
  rcases round mode c rest with ⟨mode', hloop, hitems⟩ | ⟨hloop, hitems⟩ |
    ⟨d, later, hrest, hloop, hitems⟩ | ⟨hplain, hloop, hitems⟩ | ⟨-, hloop, hitems⟩
  · rw [hloop, hitems, hcheck, ok_bind]
    exact ih mode' rest (Nat.le_refl _) s w h hnull' hlen
  · rw [hloop, hitems, hcheck, List.append_nil]
    exact finish_ok h (by omega)
  · rw [hrest] at hnull'
    rw [hrest, List.length_cons] at hlen
    rw [hloop, hitems]
    exact (ih mode later (by rw [hrest]; simp)).put h (hnull' d List.mem_cons_self)
      (fun x hx => hnull' x (List.mem_cons_of_mem _ hx)) hlen
  · rw [hloop, hitems]
    refine (ih mode rest (Nat.le_refl _)).put h (hnull c List.mem_cons_self) hnull' ?_
    exact hroom.resolve_right fun hnot => hnot.2 (hplain hnot.1)
  · rw [hloop, hitems]
    exact (ih .normal rest (Nat.le_refl _)).space h hnull' (by omega) (by omega)

/-- The induction is on the number of characters left, of which a backslash takes two. -/
theorem reads (mode : Mode) (rest : List UInt8) : Reads mode rest := by
  obtain ⟨k, hk⟩ : ∃ k, rest.length < k := ⟨_, Nat.lt_succ_self _⟩
  induction k generalizing mode rest with
  | zero => omega
  | succ k ih =>
      cases rest with
      | nil => exact reads_nil mode
      | cons c rest =>
          intro s w h hnull hlen
          rw [List.length_cons] at hk hlen
          exact reads_cons (fun mode r hr => ih mode r (by omega)) h hnull (by omega)
            (Or.inl (by omega))

/-- A plain character is collected. -/
theorem readRest_plain (hc : Plain c) (rest : List UInt8) (s : Scan) :
    readRest (c :: rest) .normal s =
      putChar s c >>= fun s => checkLength s >>= readRest rest .normal := by
  obtain ⟨h₁, h₂, h₃, h₄⟩ := hc
  rw [readRest.eq_def]
  dsimp only
  rw [if_neg h₁, if_neg h₂, if_neg h₃, if_neg (by simp [h₄])]

theorem items_plain (hc : Plain c) (rest : List UInt8) :
    items .normal (c :: rest) = .literal c :: items .normal rest := by
  obtain ⟨h₁, h₂, h₃, h₄⟩ := hc
  rw [items.eq_def]
  dsimp only
  rw [if_neg h₁, if_neg h₂, if_neg h₃, if_neg (by simp [h₄])]

/-- On a line that may be full: it is too long when all the characters so far are in the
word at hand and the rest are plain. -/
theorem finish_full (h : Collected s w) (hnull : ∀ x ∈ rest, x ≠ 0) (hw : w.length + 1 < nMax)
    (hlen : w.length + rest.length + 1 = nMax) :
    ((∀ x ∈ rest, Plain x) → finish (readRest rest .normal s) = .error .aborted) ∧
      ((¬ ∀ x ∈ rest, Plain x) → finish (readRest rest .normal s) =
        .ok (s.tokens ++ wordsOf (w.map .literal ++ items .normal rest))) := by
  induction rest generalizing s w with
  | nil =>
      rw [List.length_nil] at hlen
      omega
  | cons c rest ih =>
      rw [List.length_cons] at hlen
      have hnull' : ∀ x ∈ rest, x ≠ 0 := fun x hx => hnull x (List.mem_cons_of_mem _ hx)
      by_cases hc : Plain c
      · obtain ⟨s', hput, h', htokens⟩ := h.put (hnull c List.mem_cons_self) (by omega)
        have hlen' : (w ++ [c]).length = w.length + 1 := by simp
        rw [readRest_plain hc, items_plain hc, hput, ok_bind, List.forall_mem_cons]
        by_cases hfull : w.length + 2 = nMax
        · -- The last character of a full line.
          have hnil : rest = [] := List.length_eq_zero_iff.mp (by omega)
          subst hnil
          have habort : checkLength s' = .error .aborted := by
            unfold checkLength
            rw [h'.n, if_pos (by omega)]
          rw [habort]
          exact ⟨fun _ => rfl, fun hnot => absurd ⟨hc, fun x hx => absurd hx List.not_mem_nil⟩ hnot⟩
        · obtain ⟨hall, hsome⟩ := ih h' hnull' (by omega) (by omega)
          rw [checkLength_ok h' (by omega), ok_bind]
          refine ⟨fun hplain => hall hplain.2, fun hnot => ?_⟩
          rw [hsome fun hplain => hnot ⟨hc, hplain⟩, htokens, List.map_append, List.append_assoc]
          rfl
      · refine ⟨fun hplain => absurd (hplain c List.mem_cons_self) hc, fun _ => ?_⟩
        exact reads_cons (fun mode r _ => reads mode r) h hnull (by omega) (Or.inr ⟨rfl, hc⟩)

end Loop

/-- A line of 4095 plain characters is one too long. -/
def TooLong (line : List UInt8) : Prop := line.length + 1 = nMax ∧ ∀ c ∈ line, Plain c

/-- `tokenize` on a line whose length the index can count. -/
theorem tokenize_eq_finish {line : List UInt8} (hline : line.length < 2 ^ 32) :
    tokenize line = finish (readRest line .normal ⟨fun _ => 0, 0, []⟩) := by
  unfold tokenize finish
  rw [tokenizeLoop_eq hline (Nat.zero_le _) (by omega)]
  rfl

/-- `tokenize` returns the words of the line, or aborts when it is too long. -/
theorem tokenize_eq {line : List UInt8} (hlen : line.length < nMax) (hnull : ∀ c ∈ line, c ≠ 0) :
    (TooLong line → tokenize line = .error .aborted) ∧
      (¬ TooLong line → tokenize line = .ok (lineWords line)) := by
  have hstart : Collected ⟨fun _ => 0, 0, []⟩ [] := collected_nil rfl
  rw [tokenize_eq_finish (Nat.lt_trans hlen (by decide))]
  by_cases hfull : line.length + 1 = nMax
  · obtain ⟨hall, hsome⟩ := finish_full hstart hnull (by decide) (by simpa using hfull)
    exact ⟨fun htoo => hall htoo.2, fun hnot => hsome fun hplain => hnot ⟨hfull, hplain⟩⟩
  · refine ⟨fun htoo => absurd htoo.1 hfull, fun _ => ?_⟩
    exact reads .normal line _ [] hstart hnull (by simp; omega)

end OsTools.Shell

import Mathlib.Data.List.Chain
import Mathlib.Data.List.Nodup
import Mathlib.Data.List.TakeWhile
import Mathlib.Tactic.SplitIfs
import OsTools.Words.Count
/-!
# OsTools.Words.Automata

What `num_words` and `count_words` make of a stream. Both are automata with three
states, and both stay in state 1 behind a run of one letter: the next run is then taken
for a word whatever its length (`calls`). Both stop at the byte 255, which is `EOF` as a
`char`.

`Counts` says that the two functions do what they are for. It holds just on the streams
that are `Regular` (`counts_iff_regular`).

## Proof shape

A stream is a sequence of runs of letters with other characters between them. Within a run
both automata have a state that depends on the number of letters and on whether they are
behind a single letter (`stateOf`), so that what they do with a whole stream is a function
of the runs (`calls`, `passRuns`). The loops are proved to compute it by induction on the
stream, with the part of a run that has been read (`Reading`).

What remains is to compare two functions of the runs. The calls are the words of two letters
or more and some single letters (`calls_filter`, `calls_long`); they return if the words fit
into the buffer and none comes twice (`passRuns_eq_ok`), since `find_word` does not return
for a word that is there. Each condition in `Regular` excludes one of the ways to go wrong,
and each way is shown to go wrong.
-/

namespace OsTools.Words

/-! ### The words of a stream -/

/-- A byte that is a letter. -/
def isLetter (b : UInt8) : Bool := isalpha b.toNat

/-- A run of letters in lower case. -/
def lowered (r : List UInt8) : List Int := r.map fun b => tolower b.toNat

/-- The words of a stream: its runs of two letters or more, in lower case. -/
def wordsOf (s : List UInt8) : List (List Int) :=
  ((runs isLetter s).filter fun r => 2 ≤ r.length).map lowered

/-- `count_words` returns and has passed the words of the stream to `add_word`, and
`num_words` returns their number. -/
def Counts (junk : Nat → Int) (wclist : List WordCount) (s : List UInt8) : Prop :=
  (∃ rounds, countWords rounds junk wclist s = ⟨wordsOf s, .returned⟩) ∧
    numWords s = (wordsOf s).length

/-- What comes before the first byte 255. -/
def before (s : List UInt8) : List UInt8 := s.takeWhile (· ≠ 255)

/-- What comes from the first byte 255 on. -/
def behind (s : List UInt8) : List UInt8 := s.dropWhile (· ≠ 255)

/-- Not both of two runs are single letters. -/
def NotSingles (r r' : List UInt8) : Prop := ¬ (r.length = 1 ∧ r'.length = 1)

/-- The streams on which the automata are right. -/
structure Regular (wclist : List WordCount) (s : List UInt8) : Prop where
  /-- No two single letters follow each other. -/
  singles : (runs isLetter (before s)).IsChain NotSingles
  /-- There is no word behind a byte 255. -/
  behind : ∀ r ∈ runs isLetter (behind s), r.length = 1
  /-- The words fit into the buffer. -/
  short : ∀ r ∈ runs isLetter (before s), r.length ≤ MAX_WORD_LEN
  /-- No word comes again. -/
  distinct : (wordsOf s).Nodup ∧ ∀ w ∈ wordsOf s, ∀ e ∈ wclist, e.word ≠ w
  /-- The number of words is an `int`. -/
  few : (wordsOf s).length < 2 ^ 31

/-- The calls of `add_word` for a list of runs, one of which may be a single letter that
the automaton is behind (`armed`). -/
def calls : Bool → List (List UInt8) → List (List Int)
  | _, [] => []
  | armed, r :: rs =>
      if r.length = 1 ∧ armed = false then calls true rs else lowered r :: calls false rs

/-! ### Characters -/

variable {b : UInt8} {s w : List UInt8} {armed : Bool}

theorem toChar_eq_EOF : toChar b.toNat = EOF ↔ b = 255 := by
  have hlt := b.toNat_lt
  have hiff : b = 255 ↔ b.toNat = 255 := by
    rw [← UInt8.toNat_inj]
    rfl
  unfold toChar EOF
  rw [hiff, Int.bmod_def]
  split <;> omega

theorem isalpha_toChar (b : UInt8) : isalpha (toChar b.toNat) = isLetter b := by
  have hlt := b.toNat_lt
  unfold isLetter isalpha toChar
  rw [Int.bmod_def, decide_eq_decide]
  split <;> omega

/-- On letters the narrowing is the identity. -/
theorem toChar_letter (hb : isLetter b = true) : toChar b.toNat = b.toNat := by
  unfold isLetter isalpha at hb
  rw [decide_eq_true_iff] at hb
  unfold toChar
  rw [Int.bmod_def]
  split <;> omega

theorem tolower_ne_zero (hb : isLetter b = true) : tolower b.toNat ≠ 0 := by
  unfold isLetter isalpha at hb
  rw [decide_eq_true_iff] at hb
  unfold tolower
  split <;> omega

theorem not_letter_255 : isLetter 255 = false := by decide

/-- The number that `num_words` has counted up to. -/
theorem toInt_toInt (n : Int) (k : Int) : toInt (toInt n + k) = toInt (n + k) := by
  unfold toInt
  rw [Int.bmod_add_bmod]

/-! ### The states -/

/-- The state of both automata `k` letters into a run. -/
def stateOf (armed : Bool) (k : Nat) : Nat :=
  if k = 0 then (if armed then 1 else 0) else if armed = true ∨ 2 ≤ k then 2 else 1

/-- A letter leads from state 0 to 1 and from the others to 2. -/
theorem stateOf_succ (armed : Bool) (k : Nat) :
    (stateOf armed k = 0 ∧ stateOf armed (k + 1) = 1) ∨
      (stateOf armed k = 1 ∧ stateOf armed (k + 1) = 2) ∨
      (stateOf armed k = 2 ∧ stateOf armed (k + 1) = 2) := by
  unfold stateOf
  cases armed with
  | true => by_cases hk : k = 0 <;> simp [hk]
  | false =>
      by_cases hk : k = 0
      · simp [hk]
      · by_cases hk' : k = 1
        · simp [hk']
        · have h₁ : 2 ≤ k := by omega
          have h₂ : 2 ≤ k + 1 := by omega
          simp [hk, h₁, h₂]

theorem stateOf_zero (armed : Bool) : stateOf armed 0 = if armed then 1 else 0 := rfl

theorem stateOf_eq_two {k : Nat} : stateOf armed k = 2 ↔ 0 < k ∧ (armed = true ∨ 2 ≤ k) := by
  unfold stateOf
  split_ifs <;> simp_all
  omega

theorem stateOf_long {k : Nat} (hk : MAX_WORD_LEN < k) : stateOf armed k = 2 := by
  unfold MAX_WORD_LEN at hk
  exact stateOf_eq_two.mpr ⟨by omega, Or.inr (by omega)⟩

/-- A run is passed on when it ends in state 2. -/
theorem calls_cons (hne : w ≠ []) (rs : List (List UInt8)) : calls armed (w :: rs) =
    if stateOf armed w.length = 2 then lowered w :: calls false rs else calls true rs := by
  have hpos := List.length_pos_iff.mpr hne
  rw [calls]
  by_cases hstate : stateOf armed w.length = 2
  · rw [if_pos hstate, if_neg]
    rw [stateOf_eq_two] at hstate
    rintro ⟨hone, rfl⟩
    simp at hstate
    omega
  · rw [if_neg hstate, if_pos]
    rw [stateOf_eq_two] at hstate
    cases armed with
    | true => exact absurd ⟨hpos, Or.inl rfl⟩ hstate
    | false => exact ⟨by simp at hstate; omega, rfl⟩

/-- Within a run the state is 1 or 2. -/
theorem stateOf_of_ne_nil (armed : Bool) (hne : w ≠ []) :
    stateOf armed w.length = 1 ∨ stateOf armed w.length = 2 := by
  have hpos := List.length_pos_iff.mpr hne
  obtain ⟨k, hk⟩ : ∃ k, w.length = k + 1 := ⟨w.length - 1, by omega⟩
  rw [hk]
  rcases stateOf_succ armed k with h | h | h
  · exact Or.inl h.2
  · exact Or.inr h.2
  · exact Or.inr h.2

theorem letters_append {b : UInt8} (hw : ∀ x ∈ w, isLetter x = true) (hb : isLetter b = true) :
    ∀ x ∈ w ++ [b], isLetter x = true := by
  intro x hx
  rcases List.mem_append.mp hx with hx | hx
  · exact hw x hx
  · rw [List.mem_singleton.mp hx]
    exact hb

/-- `num_words` counts the calls: `w` is the part that it has read of a run, and the run
counts from its second letter on, or the first if armed. -/
theorem numWordsLoop_eq (hs : ∀ x ∈ s, x ≠ 255) (hw : ∀ x ∈ w, isLetter x = true) (n : Int) :
    numWordsLoop s (stateOf armed w.length)
        (toInt (n + if stateOf armed w.length = 2 then 1 else 0)) =
      toInt (n + (calls armed (runs isLetter (w ++ s))).length) := by
  induction s generalizing w armed n with
  | nil =>
      rw [numWordsLoop]
      by_cases hne : w = []
      · subst hne
        cases armed <;> simp [stateOf, calls]
      · rw [List.append_nil, runs_all hw hne, calls_cons hne]
        split <;> rfl
  | cons b s ih =>
      have hb : toChar b.toNat ≠ EOF := fun h =>
        hs b List.mem_cons_self (toChar_eq_EOF.mp h)
      have hs' : ∀ x ∈ s, x ≠ 255 := fun x hx => hs x (List.mem_cons_of_mem _ hx)
      unfold numWordsLoop
      dsimp only
      rw [if_neg hb, isalpha_toChar]
      by_cases hletter : isLetter b = true
      · have hnext := @ih (w ++ [b]) armed hs' (letters_append hw hletter) n
        rw [List.append_assoc, List.length_append, List.length_singleton,
          List.singleton_append] at hnext
        rw [← hnext, if_pos hletter, if_pos hletter, if_pos hletter]
        -- the count goes up on the way from state 1 to state 2
        rcases stateOf_succ armed w.length with ⟨h₁, h₂⟩ | ⟨h₁, h₂⟩ | ⟨h₁, h₂⟩
        · simp [h₁, h₂]
        · simp [h₁, h₂, toInt_toInt]
        · simp [h₁, h₂]
      · rw [if_neg hletter, if_neg hletter, if_neg hletter]
        rw [Bool.not_eq_true] at hletter
        by_cases hne : w = []
        · subst hne
          have hnext := @ih [] armed hs' (by simp) n
          rw [List.nil_append] at hnext ⊢
          rw [runs_cons hletter, ← hnext]
          cases armed <;> simp [stateOf]
        · rw [runs_run hw hne hletter, calls_cons hne]
          -- behind a run: a single letter leaves state 1, a word leaves state 0
          rcases stateOf_of_ne_nil armed hne with h | h
          · have hnext := @ih [] true hs' (by simp) n
            simp only [List.length_nil, stateOf_zero, List.nil_append] at hnext
            rw [h]
            simpa using hnext
          · have hnext := @ih [] false hs' (by simp) (n + 1)
            simp only [List.length_nil, stateOf_zero, List.nil_append] at hnext
            have hsum : n + 1 + ((calls false (runs isLetter s)).length : Int) =
                n + ((calls false (runs isLetter s)).length + 1) := by omega
            rw [hsum] at hnext
            rw [h]
            simpa using hnext

/-! ### Passing the words on -/

/-- What the calls of `add_word` for a list of runs do, with the run that does not fit into
the buffer. -/
def passRuns (rounds : Nat) :
    Bool → List (List UInt8) → List WordCount → List (List Int) →
      Except Trace (List WordCount × List (List Int))
  | _, [], wclist, passed => .ok (wclist, passed)
  | armed, r :: rs, wclist, passed =>
      if MAX_WORD_LEN < r.length then .error ⟨passed, .fault⟩
      else if stateOf armed r.length = 2 then
        match addWord rounds wclist (lowered r) with
        | none => .error ⟨passed ++ [lowered r], .looping⟩
        | some wclist => passRuns rounds false rs wclist (passed ++ [lowered r])
      else passRuns rounds true rs wclist passed

/-- The variables of `count_words` when it has read the part `w` of a run. -/
structure Reading (armed : Bool) (w : List UInt8) (st : State) : Prop where
  letters : ∀ x ∈ w, isLetter x = true
  index : st.index = w.length
  state : st.state = stateOf armed w.length
  fits : w.length ≤ MAX_WORD_LEN + 1
  word : ∀ i (h : i < w.length), st.word i = tolower w[i].toNat

/-- The list and the words that have been passed. -/
def outcome (st : State) : List WordCount × List (List Int) := (st.wclist, st.passed)

/-- The string in the buffer is the run, once it is ended. -/
theorem cString_eq {word : Nat → Int} (hletters : ∀ x ∈ w, isLetter x = true)
    (hfits : w.length ≤ MAX_WORD_LEN) (hword : ∀ i (h : i < w.length), word i = tolower w[i].toNat)
    (hend : word w.length = 0) : cString word = lowered w := by
  -- the buffer is the run, its terminator, and what is left of earlier words
  have hrange : List.range (MAX_WORD_LEN + 1) = List.range w.length ++
      w.length :: List.range' (w.length + 1) (MAX_WORD_LEN - w.length) := by
    have hlen : MAX_WORD_LEN + 1 = w.length + (1 + (MAX_WORD_LEN - w.length)) := by omega
    rw [hlen, List.range_eq_range', ← List.range'_append_1, List.range_eq_range', Nat.zero_add,
      Nat.add_comm 1, List.range'_succ]
  have hfront : (List.range w.length).map word = lowered w := by
    refine List.ext_getElem (by simp [lowered]) fun i h₁ h₂ => ?_
    have hi : i < w.length := by simpa using h₁
    simp [lowered, hword i hi]
  unfold cString
  rw [hrange, List.map_append, hfront, List.map_cons, hend, List.takeWhile_append_of_pos,
    List.takeWhile_cons_of_neg (by simp), List.append_nil]
  intro c hc
  obtain ⟨b, hb, rfl⟩ := List.mem_map.mp hc
  simpa using tolower_ne_zero (hletters b hb)

theorem storeChar_ok {st : State} (h : Reading armed w st) (hfits : w.length ≤ MAX_WORD_LEN)
    (c : Int) : storeChar st c =
      .ok { st with word := Function.update st.word w.length c } := by
  unfold storeChar
  rw [h.index, if_pos (by omega)]

theorem storeChar_fault {st : State} (h : Reading armed w st) (hlong : MAX_WORD_LEN < w.length)
    (c : Int) : storeChar st c = .error ⟨st.passed, .fault⟩ := by
  unfold storeChar
  rw [h.index, if_neg (by omega)]

/-- One more letter of the run. -/
theorem Reading.add {st st' : State} (h : Reading armed w st) (hb : isLetter b = true)
    (hfits : w.length ≤ MAX_WORD_LEN)
    (hword : st'.word = Function.update st.word w.length (tolower b.toNat))
    (hindex : st'.index = st.index + 1) (hstate : st'.state = stateOf armed (w.length + 1)) :
    Reading armed (w ++ [b]) st' := by
  refine ⟨letters_append h.letters hb, ?_, ?_, ?_, fun i hi => ?_⟩
  · rw [hindex, h.index, List.length_append, List.length_singleton]
  · rw [hstate, List.length_append, List.length_singleton]
  · rw [List.length_append, List.length_singleton]
    omega
  · rw [hword]
    by_cases hlt : i < w.length
    · rw [Function.update_of_ne (by omega), h.word i hlt, List.getElem_append_left hlt]
    · have heq : i = w.length := by
        rw [List.length_append, List.length_singleton] at hi
        omega
      subst heq
      rw [Function.update_self, List.getElem_concat_length rfl]

/-- A letter. -/
theorem Reading.letter {st : State} (h : Reading armed w st) (hb : isLetter b = true)
    (hfits : w.length ≤ MAX_WORD_LEN) (rounds : Nat) :
    ∃ st', countWordsStep rounds (toChar b.toNat) st = .ok st' ∧ Reading armed (w ++ [b]) st' ∧
      outcome st' = outcome st := by
  have halpha : isalpha (toChar b.toNat) = true := by rw [isalpha_toChar, hb]
  unfold countWordsStep
  rw [if_pos halpha, if_pos halpha, if_pos halpha, storeChar_ok h hfits, toChar_letter hb, h.state]
  simp only [ok_bind]
  rcases stateOf_succ armed w.length with ⟨h₁, h₂⟩ | ⟨h₁, h₂⟩ | ⟨h₁, h₂⟩
  · rw [if_pos h₁]
    exact ⟨_, rfl, h.add hb hfits rfl rfl h₂.symm, rfl⟩
  · rw [if_neg (by omega), if_pos h₁]
    exact ⟨_, rfl, h.add hb hfits rfl rfl h₂.symm, rfl⟩
  · rw [if_neg (by omega), if_neg (by omega), if_pos h₁]
    exact ⟨_, rfl, h.add hb hfits rfl rfl (by rw [h₂, ← h₁, ← h.state]), rfl⟩

/-- One letter too many. -/
theorem Reading.step_fault {st : State} (h : Reading armed w st) (hlong : MAX_WORD_LEN < w.length)
    (rounds : Nat) (c : Int) (hc : isalpha c = true) :
    countWordsStep rounds c st = .error ⟨st.passed, .fault⟩ := by
  unfold countWordsStep
  rw [h.state, stateOf_long hlong, if_neg (by omega), if_neg (by omega), if_pos rfl, if_pos hc,
    storeChar_fault h hlong]
  rfl

/-- The end of a run. -/
theorem Reading.pass {st : State} (h : Reading armed w st) (hfits : w.length ≤ MAX_WORD_LEN)
    (rounds : Nat) :
    passWord rounds st =
      match addWord rounds st.wclist (lowered w) with
      | none => .error ⟨st.passed ++ [lowered w], .looping⟩
      | some l => .ok { st with
          word := Function.update st.word w.length 0
          wclist := l
          passed := st.passed ++ [lowered w] } := by
  have hstring : cString (Function.update st.word w.length 0) = lowered w := by
    refine cString_eq h.letters hfits (fun i hi => ?_) (Function.update_self _ _ _)
    rw [Function.update_of_ne (by omega), h.word i hi]
  unfold passWord
  rw [storeChar_ok h hfits, ok_bind]
  dsimp only
  generalize lowered w = l at hstring ⊢
  subst hstring
  rfl

theorem reading_nil {st : State} (hindex : st.index = 0) (hstate : st.state = stateOf armed 0) :
    Reading armed [] st :=
  ⟨fun _ hx => absurd hx List.not_mem_nil, hindex, hstate, Nat.zero_le _, fun _ h =>
    absurd h (Nat.not_lt_zero _)⟩

/-- The end of the stream. -/
theorem Reading.last {st : State} (h : Reading armed w st) (rounds : Nat) :
    (lastWord rounds st >>= fun st => .ok (outcome st)) =
      passRuns rounds armed (runs isLetter w) st.wclist st.passed := by
  unfold lastWord
  rw [h.state]
  by_cases hne : w = []
  · subst hne
    rw [if_neg (by cases armed <;> decide), ok_bind]
    rfl
  rw [runs_all h.letters hne]
  unfold passRuns
  by_cases hlong : MAX_WORD_LEN < w.length
  · rw [if_pos (stateOf_long hlong), if_pos hlong]
    unfold passWord
    rw [storeChar_fault h hlong]
    rfl
  rw [if_neg hlong]
  -- only state 2 passes a word on at the end of the stream
  by_cases htwo : stateOf armed w.length = 2
  · rw [if_pos htwo, if_pos htwo, h.pass (by omega)]
    cases addWord rounds st.wclist (lowered w) with
    | none => rfl
    | some l => rfl
  · rw [if_neg htwo, if_neg htwo]
    rfl

/-- A letter makes the run longer, or it is one too many. -/
theorem Reading.step_letter {st : State}
    {next : State → Except Trace (List WordCount × List (List Int))} (h : Reading armed w st)
    (hb : isLetter b = true) (rounds : Nat)
    (hnext : ∀ st', Reading armed (w ++ [b]) st' → next st' =
      passRuns rounds armed (runs isLetter (w ++ b :: s)) st'.wclist st'.passed) :
    (countWordsStep rounds (toChar b.toNat) st >>= next) =
      passRuns rounds armed (runs isLetter (w ++ b :: s)) st.wclist st.passed := by
  by_cases hlong : MAX_WORD_LEN < w.length
  · -- the run that is too long begins the list of runs that are left
    obtain ⟨v, rest, hruns⟩ := runs_prefix (letters_append h.letters hb) (by simp) s
    rw [List.append_assoc, List.singleton_append] at hruns
    rw [hruns, h.step_fault hlong rounds _ (by rw [isalpha_toChar, hb])]
    unfold passRuns
    rw [if_pos (by simp; omega)]
    rfl
  · obtain ⟨st', hstep, hread, hout⟩ := h.letter hb (by omega) rounds
    obtain ⟨hlist, hpassed⟩ := Prod.mk.inj hout
    rw [hstep, ok_bind, hnext st' hread, hlist, hpassed]

/-- Another character ends the run, if there is one. What the automata do then depends on the
state that the letters of the run have led to: a single letter is in state 1, and a longer run
in state 2. -/
theorem Reading.step_other {st : State}
    {next : State → Except Trace (List WordCount × List (List Int))} (h : Reading armed w st)
    (hb : isLetter b = false) (rounds : Nat)
    (hnext : ∀ armed st', Reading armed [] st' → next st' =
      passRuns rounds armed (runs isLetter s) st'.wclist st'.passed) :
    (countWordsStep rounds (toChar b.toNat) st >>= next) =
      passRuns rounds armed (runs isLetter (w ++ b :: s)) st.wclist st.passed := by
  have halpha : ¬ isalpha (toChar b.toNat) = true := by
    rw [isalpha_toChar, hb]
    decide
  unfold countWordsStep
  rw [if_neg halpha, if_neg halpha, if_neg halpha]
  by_cases hne : w = []
  · subst hne
    rw [List.nil_append, runs_cons hb]
    -- no run has begun: the state is 0, or 1 behind a single letter
    cases armed with
    | false =>
        have hzero : st.state = 0 := h.state
        rw [if_pos hzero]
        exact hnext false st h
    | true =>
        have hone : st.state = 1 := h.state
        rw [if_neg (by omega), if_pos hone]
        exact hnext true _ (reading_nil rfl hone)
  rw [runs_run h.letters hne hb]
  unfold passRuns
  rcases stateOf_of_ne_nil armed hne with hone | htwo
  · -- the state is 1: a single letter, which is forgotten
    have hshort : ¬ MAX_WORD_LEN < w.length := by
      intro hlong
      rw [stateOf_long hlong] at hone
      exact absurd hone (by decide)
    have hstate : st.state = 1 := h.state.trans hone
    rw [if_neg (by omega), if_pos hstate, if_neg hshort, if_neg (by omega)]
    exact hnext true _ (reading_nil rfl hstate)
  · -- the state is 2: the word is passed on
    have hstate : st.state = 2 := h.state.trans htwo
    rw [if_neg (by omega), if_neg (by omega), if_pos hstate, if_pos htwo]
    by_cases hlong : MAX_WORD_LEN < w.length
    · rw [if_pos hlong]
      unfold passWord
      rw [storeChar_fault h hlong]
      rfl
    · rw [if_neg hlong, h.pass (by omega)]
      cases addWord rounds st.wclist (lowered w) with
      | none => rfl
      | some l => exact hnext false _ (reading_nil rfl rfl)

/-- `count_words` passes on what `passRuns` says: the induction is on the stream, and `w`
is what has been read of a run. -/
theorem countWordsLoop_eq {st : State} (hs : ∀ x ∈ s, x ≠ 255) (h : Reading armed w st)
    (rounds : Nat) :
    (countWordsLoop rounds s st >>= fun st => lastWord rounds st >>= fun st => .ok (outcome st)) =
      passRuns rounds armed (runs isLetter (w ++ s)) st.wclist st.passed := by
  induction s generalizing w armed st with
  | nil =>
      rw [List.append_nil]
      exact h.last rounds
  | cons b s ih =>
      have hb : toChar b.toNat ≠ EOF := fun heq =>
        hs b List.mem_cons_self (toChar_eq_EOF.mp heq)
      have hs' : ∀ x ∈ s, x ≠ 255 := fun x hx => hs x (List.mem_cons_of_mem _ hx)
      unfold countWordsLoop
      dsimp only
      rw [if_neg hb, bind_assoc]
      cases hletter : isLetter b with
      | true =>
          refine h.step_letter hletter rounds fun st' hread => ?_
          rw [ih hs' hread, List.append_assoc, List.singleton_append]
      | false => exact h.step_other hletter rounds fun _ st' hread => ih hs' hread

/-! ### Adding words -/

section AddWord

variable {l l' : List WordCount} {word : List Int} {e : WordCount} {rounds i : Nat}

/-- When the word is there, `find_word` does not return. -/
theorem findWordLoop_present {j : Nat} {wc : Option Nat} (hij : i ≤ j) (he : l[j]? = some e)
    (hword : e.word = word) : findWordLoop l word rounds i wc = none := by
  induction rounds generalizing i wc with
  | zero => rfl
  | succ rounds ih =>
      unfold findWordLoop
      have hlt : i < l.length := by
        have := (List.getElem?_eq_some_iff.mp he).1
        omega
      rw [List.getElem?_eq_getElem hlt]
      dsimp only
      by_cases hne : l[i].word ≠ word
      · rw [if_pos hne]
        refine ih ?_
        -- the loop goes on at the word itself only if it is another word
        by_contra hgt
        have hji : j = i := by omega
        subst hji
        rw [List.getElem?_eq_getElem hlt] at he
        exact hne (Option.some.inj he ▸ hword)
      · rw [if_neg hne]
        exact ih hij

/-- When it is not, `find_word` says so. -/
theorem findWordLoop_absent (h : ∀ e ∈ l, e.word ≠ word) (hi : i ≤ l.length) :
    findWordLoop l word rounds i none =
      if l.length < i + rounds then some none else none := by
  induction rounds generalizing i with
  | zero =>
      rw [if_neg (by omega)]
      rfl
  | succ rounds ih =>
      unfold findWordLoop
      by_cases hlt : i < l.length
      · rw [List.getElem?_eq_getElem hlt]
        dsimp only
        rw [if_pos (h _ (List.getElem_mem hlt)), ih (by omega : i + 1 ≤ l.length), Nat.add_assoc,
          Nat.add_comm 1]
      · rw [List.getElem?_eq_none (by omega)]
        dsimp only
        rw [if_pos (by omega)]

theorem addWord_present (he : e ∈ l) (hword : e.word = word) : addWord rounds l word = none := by
  obtain ⟨j, hj⟩ := List.mem_iff_getElem?.mp he
  unfold addWord findWord
  rw [findWordLoop_present (Nat.zero_le j) hj hword]

theorem addWord_absent (h : ∀ e ∈ l, e.word ≠ word) :
    addWord rounds l word = if l.length < rounds then some (⟨word, 1⟩ :: l) else none := by
  unfold addWord findWord
  rw [findWordLoop_absent h (Nat.zero_le _), Nat.zero_add]
  by_cases hlt : l.length < rounds
  · rw [if_pos hlt, if_pos hlt]
  · rw [if_neg hlt, if_neg hlt]

/-- `add_word` returns only when the word is new. -/
theorem addWord_eq_some (h : addWord rounds l word = some l') :
    (∀ e ∈ l, e.word ≠ word) ∧ l' = ⟨word, 1⟩ :: l := by
  have hnew : ∀ e ∈ l, e.word ≠ word := by
    intro e he hword
    rw [addWord_present he hword] at h
    cases h
  refine ⟨hnew, ?_⟩
  rw [addWord_absent hnew] at h
  by_cases hlt : l.length < rounds
  · rw [if_pos hlt] at h
    exact (Option.some.inj h).symm
  · rw [if_neg hlt] at h
    cases h

/-- Words that are new and differ from each other. -/
def New (l : List WordCount) (ws : List (List Int)) : Prop :=
  ws.Nodup ∧ ∀ w ∈ ws, ∀ e ∈ l, e.word ≠ w

theorem new_cons {ws : List (List Int)} :
    New l (word :: ws) ↔ (∀ e ∈ l, e.word ≠ word) ∧ New (⟨word, 1⟩ :: l) ws := by
  unfold New
  rw [List.nodup_cons]
  constructor
  · intro h
    obtain ⟨⟨hnot, hnodup⟩, hnew⟩ := h
    refine ⟨hnew word List.mem_cons_self, hnodup, fun w hw e he => ?_⟩
    rcases List.mem_cons.mp he with rfl | he
    · intro heq
      have heq' : word = w := heq
      exact hnot (heq' ▸ hw)
    · exact hnew w (List.mem_cons_of_mem _ hw) e he
  · intro h
    obtain ⟨hword, hnodup, hnew⟩ := h
    refine ⟨⟨fun hmem => hnew word hmem _ List.mem_cons_self rfl, hnodup⟩, fun w hw e he => ?_⟩
    rcases List.mem_cons.mp hw with rfl | hw
    · exact hword e he
    · exact hnew w hw e (List.mem_cons_of_mem _ he)

/-- A run over all the words returns when they fit and are new, and the rounds are enough. -/
theorem passRuns_ok {rs : List (List UInt8)} {ps : List (List Int)} (hrs : ∀ r ∈ rs, r ≠ [])
    (hshort : ∀ r ∈ rs, r.length ≤ MAX_WORD_LEN) (hnew : New l (calls armed rs))
    (hrounds : l.length + rs.length < rounds) :
    ∃ l', passRuns rounds armed rs l ps = .ok (l', ps ++ calls armed rs) := by
  induction rs generalizing l ps armed with
  | nil => exact ⟨l, by rw [calls, List.append_nil]; rfl⟩
  | cons r rs ih =>
      have hshort' : ∀ r ∈ rs, r.length ≤ MAX_WORD_LEN := fun r hr =>
        hshort r (List.mem_cons_of_mem _ hr)
      have hrs' : ∀ r ∈ rs, r ≠ [] := fun r hr => hrs r (List.mem_cons_of_mem _ hr)
      have hne := hrs r List.mem_cons_self
      rw [List.length_cons] at hrounds
      rw [calls_cons hne] at hnew ⊢
      unfold passRuns
      rw [if_neg (by have := hshort r List.mem_cons_self; omega)]
      by_cases htwo : stateOf armed r.length = 2
      · rw [if_pos htwo] at hnew ⊢
        obtain ⟨hword, hrest⟩ := new_cons.mp hnew
        rw [if_pos htwo, addWord_absent hword, if_pos (by omega)]
        obtain ⟨l', hl'⟩ := @ih false _ (ps ++ [lowered r]) hrs' hshort' hrest
          (by rw [List.length_cons]; omega)
        rw [List.append_assoc, List.singleton_append] at hl'
        exact ⟨l', hl'⟩
      · rw [if_neg htwo] at hnew ⊢
        rw [if_neg htwo]
        exact ih hrs' hshort' hnew (by omega)

/-- It returns only then. -/
theorem passRuns_eq_ok {rs : List (List UInt8)} {ps ps' : List (List Int)}
    (hrs : ∀ r ∈ rs, r ≠ []) (h : passRuns rounds armed rs l ps = .ok (l', ps')) :
    ps' = ps ++ calls armed rs ∧ (∀ r ∈ rs, r.length ≤ MAX_WORD_LEN) ∧ New l (calls armed rs) := by
  induction rs generalizing l ps armed with
  | nil =>
      cases h
      exact ⟨by rw [calls, List.append_nil], fun r hr => absurd hr List.not_mem_nil,
        List.nodup_nil, fun w hw => absurd hw List.not_mem_nil⟩
  | cons r rs ih =>
      have hrs' : ∀ r ∈ rs, r ≠ [] := fun r hr => hrs r (List.mem_cons_of_mem _ hr)
      have hne := hrs r List.mem_cons_self
      rw [calls_cons hne]
      unfold passRuns at h
      by_cases hlong : MAX_WORD_LEN < r.length
      · rw [if_pos hlong] at h
        cases h
      rw [if_neg hlong] at h
      have hshort : (∀ x ∈ rs, x.length ≤ MAX_WORD_LEN) →
          ∀ x ∈ r :: rs, x.length ≤ MAX_WORD_LEN := by
        intro hrest x hx
        rcases List.mem_cons.mp hx with rfl | hx
        · omega
        · exact hrest x hx
      by_cases htwo : stateOf armed r.length = 2
      · rw [if_pos htwo] at h ⊢
        cases hadd : addWord rounds l (lowered r) with
        | none =>
            rw [hadd] at h
            cases h
        | some l₁ =>
            rw [hadd] at h
            obtain ⟨hword, rfl⟩ := addWord_eq_some hadd
            obtain ⟨hps, hfit, hnew⟩ := ih hrs' h
            refine ⟨?_, hshort hfit, new_cons.mpr ⟨hword, hnew⟩⟩
            rw [hps, List.append_assoc, List.singleton_append]
      · rw [if_neg htwo] at h ⊢
        obtain ⟨hps, hfit, hnew⟩ := ih hrs' h
        exact ⟨hps, hshort hfit, hnew⟩

theorem passRuns_error {rs : List (List UInt8)} {ps : List (List Int)} {t : Trace}
    (h : passRuns rounds armed rs l ps = .error t) : t.ending ≠ .returned := by
  induction rs generalizing l ps armed with
  | nil => cases h
  | cons r rs ih =>
      unfold passRuns at h
      by_cases hlong : MAX_WORD_LEN < r.length
      · rw [if_pos hlong] at h
        cases h
        exact nofun
      rw [if_neg hlong] at h
      by_cases htwo : stateOf armed r.length = 2
      · rw [if_pos htwo] at h
        cases hadd : addWord rounds l (lowered r) with
        | none =>
            rw [hadd] at h
            cases h
            exact nofun
        | some l₁ =>
            rw [hadd] at h
            exact ih h
      · rw [if_neg htwo] at h
        exact ih h

end AddWord

/-! ### Calls and words -/

theorem length_lowered (r : List UInt8) : (lowered r).length = r.length := by
  unfold lowered
  rw [List.length_map]

/-- The words of two letters or more among the calls are all there are. -/
theorem calls_filter {rs : List (List UInt8)} :
    (calls armed rs).filter (fun w => decide (2 ≤ w.length)) =
      (rs.filter fun r => 2 ≤ r.length).map lowered := by
  induction rs generalizing armed with
  | nil => rfl
  | cons r rs ih =>
      unfold calls
      by_cases hone : r.length = 1 ∧ armed = false
      · rw [if_pos hone, List.filter_cons_of_neg (by simp [hone.1])]
        exact ih
      · rw [if_neg hone]
        by_cases htwo : 2 ≤ r.length
        · rw [List.filter_cons_of_pos (by simpa [length_lowered] using htwo),
            List.filter_cons_of_pos (by simpa using htwo), List.map_cons, ih]
        · rw [List.filter_cons_of_neg (by simpa [length_lowered] using htwo),
            List.filter_cons_of_neg (by simpa using htwo), ih]

/-- A single letter is passed on just when it follows another one. -/
theorem calls_long {rs : List (List UInt8)} (hrs : ∀ r ∈ rs, r ≠ []) :
    (∀ w ∈ calls armed rs, 2 ≤ w.length) ↔
      rs.IsChain NotSingles ∧ (armed = true → ∀ r ∈ rs.head?, r.length ≠ 1) := by
  induction rs generalizing armed with
  | nil => simp [calls]
  | cons r rs ih =>
      have hrs' : ∀ r ∈ rs, r ≠ [] := fun r hr => hrs r (List.mem_cons_of_mem _ hr)
      have hpos := List.length_pos_iff.mpr (hrs r List.mem_cons_self)
      rw [List.isChain_cons]
      unfold calls
      by_cases hone : r.length = 1
      · have hnext : ∀ r', NotSingles r r' ↔ r'.length ≠ 1 := fun r' => by simp [NotSingles, hone]
        cases armed with
        | false =>
            rw [if_pos ⟨hone, rfl⟩, ih hrs']
            simp only [hnext, reduceCtorEq, false_imp_iff, and_true, true_imp_iff]
            exact And.comm
        | true =>
            have hshort : ¬ 2 ≤ (lowered r).length := by
              rw [length_lowered]
              omega
            rw [if_neg (by simp)]
            simp [hshort, hone]
      · have hnext : ∀ r', NotSingles r r' := fun r' h => hone h.1
        have hlong : 2 ≤ (lowered r).length := by
          rw [length_lowered]
          omega
        rw [if_neg fun h => hone h.1, List.forall_mem_cons, ih hrs']
        simp [hlong, hnext, hone]

/-! ### Streams -/

theorem mem_before {x : UInt8} (hx : x ∈ before s) : x ≠ 255 := by
  have := List.mem_takeWhile_imp hx
  simpa using this

/-- No run goes over a byte 255. -/
theorem runs_before_behind (s : List UInt8) :
    runs isLetter s = runs isLetter (before s) ++ runs isLetter (behind s) := by
  have hsplit : s = before s ++ behind s := (List.takeWhile_append_dropWhile).symm
  cases hbehind : behind s with
  | nil =>
      rw [runs_nil, List.append_nil]
      congr 1
      rw [hbehind, List.append_nil] at hsplit
      exact hsplit
  | cons b t =>
      have hb : b = 255 := by
        have := List.head?_dropWhile_not (fun x : UInt8 => decide (x ≠ 255)) s
        unfold behind at hbehind
        rw [hbehind] at this
        simpa using this
      subst hb
      rw [runs_cons not_letter_255, ← runs_append_cons not_letter_255, ← hbehind, ← hsplit]

theorem numWordsLoop_before (s : List UInt8) (state : Nat) (n : Int) :
    numWordsLoop s state n = numWordsLoop (before s) state n := by
  induction s generalizing state n with
  | nil => rfl
  | cons b s ih =>
      unfold before
      by_cases hb : b = 255
      · rw [List.takeWhile_cons_of_neg (by simp [hb])]
        unfold numWordsLoop
        dsimp only
        rw [if_pos (toChar_eq_EOF.mpr hb)]
      · rw [List.takeWhile_cons_of_pos (by simp [hb])]
        unfold numWordsLoop
        simp only [ih]
        rfl

theorem countWordsLoop_before (rounds : Nat) (s : List UInt8) (st : State) :
    countWordsLoop rounds s st = countWordsLoop rounds (before s) st := by
  induction s generalizing st with
  | nil => rfl
  | cons b s ih =>
      unfold before
      by_cases hb : b = 255
      · rw [List.takeWhile_cons_of_neg (by simp [hb])]
        unfold countWordsLoop
        dsimp only
        rw [if_pos (toChar_eq_EOF.mpr hb)]
      · rw [List.takeWhile_cons_of_pos (by simp [hb])]
        unfold countWordsLoop
        simp only [ih]
        rfl

/-- `num_words` returns the number of calls. -/
theorem numWords_eq (s : List UInt8) :
    numWords s = toInt (calls false (runs isLetter (before s))).length := by
  have hloop := @numWordsLoop_eq (before s) [] false (fun x hx => mem_before hx) (by simp) 0
  unfold numWords
  rw [numWordsLoop_before]
  simpa [stateOf, toInt] using hloop

/-- How `count_words` ends when the calls of `add_word` end so. -/
def traceOf : Except Trace (List WordCount × List (List Int)) → Trace
  | .ok (_, passed) => ⟨passed, .returned⟩
  | .error trace => trace

/-- `count_words` ends as the calls of `add_word` do. -/
theorem countWords_eq {rounds : Nat} {junk : Nat → Int} {wclist : List WordCount} :
    countWords rounds junk wclist s =
      traceOf (passRuns rounds false (runs isLetter (before s)) wclist []) := by
  have hstart : Reading false [] ⟨junk, 0, 0, wclist, []⟩ := reading_nil rfl rfl
  have hloop := countWordsLoop_eq (fun x hx => mem_before (s := s) hx) hstart rounds
  rw [List.nil_append, ← countWordsLoop_before] at hloop
  rw [← hloop]
  unfold countWords
  cases countWordsLoop rounds s ⟨junk, 0, 0, wclist, []⟩ with
  | error trace => rfl
  | ok st =>
      rw [ok_bind, ok_bind]
      cases lastWord rounds st with
      | error trace => rfl
      | ok st => rfl

/-- It returns when they do. -/
theorem countWords_returned {rounds : Nat} {junk : Nat → Int} {wclist : List WordCount}
    {ps : List (List Int)} :
    countWords rounds junk wclist s = ⟨ps, .returned⟩ ↔
      ∃ l, passRuns rounds false (runs isLetter (before s)) wclist [] = .ok (l, ps) := by
  rw [countWords_eq]
  cases hrun : passRuns rounds false (runs isLetter (before s)) wclist [] with
  | error trace =>
      have hending := passRuns_error hrun
      constructor
      · intro heq
        rw [show trace = _ from heq] at hending
        exact absurd rfl hending
      · intro hok
        obtain ⟨l, hl⟩ := hok
        cases hl
  | ok result =>
      obtain ⟨l, passed⟩ := result
      constructor
      · intro heq
        rw [← show passed = ps from (Trace.mk.inj heq).1]
        exact ⟨l, rfl⟩
      · intro hok
        obtain ⟨l', hl⟩ := hok
        cases hl
        rfl

theorem toInt_eq {n : Nat} : toInt n = n ↔ n < 2 ^ 31 := by
  unfold toInt
  rw [Int.bmod_def]
  split <;> omega

/-- **When the word counter counts.** `count_words` returns with exactly the words of the
stream passed on, in order, and `num_words` returns their number, if and only if the
stream is regular. -/
theorem counts_iff_regular (junk : Nat → Int) (wclist : List WordCount) (s : List UInt8) :
    Counts junk wclist s ↔ Regular wclist s := by
  have hrs : ∀ r ∈ runs isLetter (before s), r ≠ [] := fun r hr => ne_nil_of_mem_runs hr
  have hlong := @calls_long false _ hrs
  have hfilter := @calls_filter false (runs isLetter (before s))
  have hwords : wordsOf s = ((runs isLetter (before s)).filter fun r => 2 ≤ r.length).map lowered ++
      ((runs isLetter (behind s)).filter fun r => 2 ≤ r.length).map lowered := by
    unfold wordsOf
    rw [runs_before_behind, List.filter_append, List.map_append]
  rw [← hfilter] at hwords
  have hlater : ((runs isLetter (behind s)).filter fun r => 2 ≤ r.length).map lowered = [] ↔
      ∀ r ∈ runs isLetter (behind s), r.length = 1 := by
    rw [List.map_eq_nil_iff, List.filter_eq_nil_iff]
    refine forall₂_congr fun r hr => ?_
    have hpos := List.length_pos_iff.mpr (ne_nil_of_mem_runs hr)
    rw [decide_eq_true_iff]
    omega
  constructor
  · intro h
    obtain ⟨⟨rounds, hcount⟩, hnum⟩ := h
    obtain ⟨l, hpass⟩ := countWords_returned.mp hcount
    obtain ⟨hps, hshort, hnew⟩ := passRuns_eq_ok hrs hpass
    rw [List.nil_append] at hps
    have hall : ∀ w ∈ calls false (runs isLetter (before s)), 2 ≤ w.length := by
      intro w hw
      rw [← hps] at hw
      obtain ⟨r, hr, rfl⟩ := List.mem_map.mp hw
      rw [length_lowered]
      simpa using (List.mem_filter.mp hr).2
    rw [List.filter_eq_self.mpr fun w hw => by simpa using hall w hw, hps] at hwords
    rw [numWords_eq, ← hps] at hnum
    refine ⟨(hlong.mp hall).1, hlater.mp ?_, hshort, hps ▸ hnew, toInt_eq.mp hnum⟩
    have hlen := congrArg List.length hwords
    rw [List.length_append] at hlen
    exact List.length_eq_zero_iff.mp (by omega)
  · intro h
    have hall := hlong.mpr ⟨h.singles, by simp⟩
    rw [hlater.mpr h.behind, List.append_nil,
      List.filter_eq_self.mpr fun w hw => by simpa using hall w hw] at hwords
    have hnew := h.distinct
    have hfew := h.few
    rw [hwords] at hnew hfew
    obtain ⟨l, hpass⟩ := @passRuns_ok false wclist _ _ [] hrs h.short hnew (Nat.lt_succ_self _)
    rw [List.nil_append, ← hwords] at hpass
    refine ⟨⟨_, countWords_returned.mpr ⟨l, hpass⟩⟩, ?_⟩
    rw [numWords_eq, hwords]
    exact toInt_eq.mpr hfew

/-- On `a b` the second letter is passed on as a word, and counted. -/
theorem not_counts_two_letters : ¬ Counts (fun _ => 0) [] [97, 32, 98] := by
  intro h
  have hnum := h.2
  revert hnum
  decide

end OsTools.Words

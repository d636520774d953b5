import OsTools.Words.Automata
/-!
# OsTools.Words.Limits

Where the word counter of `hw-intro/words` stops being one. `find_word` does not return when the
word is in the list, so that `add_word` counts words just as long as none comes again
(`adding_right_iff`). `count_words` keeps to its buffer up to the first run that is too long,
if it gets there (`writes_inside_iff`).

Both results reuse the functions of the runs from `Words.Automata`; the first one with calls
of `add_word` by themselves, whatever words they are for, the second one with the run that
is too long in the middle.
-/

namespace OsTools.Words

/-! ### The list -/

/-- The calls of `add_word` for some words, one after the other. -/
def addWords (rounds : Nat) : List WordCount → List (List Int) → Option (List WordCount)
  | l, [] => some l
  | l, word :: ws => (addWord rounds l word).bind fun l => addWords rounds l ws

/-- The list has one entry for each of the words, with the number of times it is among them. -/
structure Counted (ws : List (List Int)) (l : List WordCount) : Prop where
  single : (l.map WordCount.word).Nodup
  words : ∀ word, word ∈ l.map WordCount.word ↔ word ∈ ws
  count : ∀ e ∈ l, e.count = ws.count e.word

/-- All the calls return, and the words are counted. -/
def AddsRight (ws : List (List Int)) : Prop :=
  ∃ rounds l, addWords rounds [] ws = some l ∧ Counted ws l

/-- `find_word` returns, with an entry of the word just when there is one. -/
def FindsRight (l : List WordCount) (word : List Int) : Prop :=
  ∃ rounds r, findWord rounds l word = some r ∧ (r = none ↔ ∀ e ∈ l, e.word ≠ word) ∧
    ∀ i, r = some i → ∃ e, l[i]? = some e ∧ e.word = word

variable {l l' : List WordCount} {word : List Int} {ws us : List (List Int)} {rounds : Nat}

/-- The calls return when the words are new. -/
theorem addWords_new (h : New l ws) (hrounds : l.length + ws.length ≤ rounds) :
    addWords rounds l ws = some ((ws.map fun word => ⟨word, 1⟩).reverse ++ l) := by
  induction ws generalizing l with
  | nil => rfl
  | cons word ws ih =>
      obtain ⟨hword, hrest⟩ := new_cons.mp h
      rw [List.length_cons] at hrounds
      rw [addWords, addWord_absent hword, if_pos (by omega), Option.bind_some,
        ih hrest (by rw [List.length_cons]; omega)]
      simp

/-- They return only then. -/
theorem new_of_addWords (h : addWords rounds l ws = some l') : New l ws := by
  induction ws generalizing l with
  | nil => exact ⟨List.nodup_nil, fun w hw => absurd hw List.not_mem_nil⟩
  | cons word ws ih =>
      rw [addWords] at h
      obtain ⟨l₁, hadd, hrest⟩ := Option.bind_eq_some_iff.mp h
      obtain ⟨hword, rfl⟩ := addWord_eq_some hadd
      exact new_cons.mpr ⟨hword, ih hrest⟩

/-- Words that differ are counted once each. -/
theorem counted_of_nodup (h : ws.Nodup) :
    Counted ws (ws.map fun word => ⟨word, 1⟩).reverse := by
  have hwords : ((ws.map fun word => (⟨word, 1⟩ : WordCount)).reverse).map WordCount.word =
      ws.reverse := by
    rw [List.map_reverse, List.map_map]
    exact congrArg List.reverse (List.map_id ws)
  refine ⟨?_, fun word => ?_, fun e he => ?_⟩
  · rw [hwords]
    exact List.nodup_reverse.mpr h
  · rw [hwords, List.mem_reverse]
  · obtain ⟨word, hword, rfl⟩ := List.mem_map.mp (List.mem_reverse.mp he)
    rw [List.count_eq_one_of_mem h hword]
    rfl

theorem addsRight_iff_nodup : AddsRight ws ↔ ws.Nodup := by
  constructor
  · intro h
    obtain ⟨rounds, l, hadd, -⟩ := h
    exact (new_of_addWords hadd).1
  · intro h
    have hnew : New [] ws := ⟨h, fun w _ e he => absurd he List.not_mem_nil⟩
    have hadd := addWords_new hnew (Nat.le_of_eq (Nat.zero_add _))
    rw [List.append_nil] at hadd
    exact ⟨_, _, hadd, counted_of_nodup h⟩

theorem findsRight_iff_absent : FindsRight l word ↔ ∀ e ∈ l, e.word ≠ word := by
  constructor
  · intro h e he hword
    obtain ⟨rounds, r, hfind, -⟩ := h
    obtain ⟨j, hj⟩ := List.mem_iff_getElem?.mp he
    rw [findWord, findWordLoop_present (Nat.zero_le j) hj hword] at hfind
    cases hfind
  · intro h
    have hfind := @findWordLoop_absent l word (l.length + 1) 0 h (Nat.zero_le _)
    rw [if_pos (by omega)] at hfind
    exact ⟨l.length + 1, none, hfind, ⟨fun _ => h, fun _ => rfl⟩, nofun⟩

/-- **When the list counts words.** All calls of `add_word` return, and the list counts the words,
if and only if no word comes twice. `find_word` returns the right entry if and only if there is
none. -/
theorem adding_right_iff (ws : List (List Int)) (l : List WordCount) (word : List Int) :
    (AddsRight ws ↔ ws.Nodup) ∧ (FindsRight l word ↔ ∀ e ∈ l, e.word ≠ word) :=
  ⟨addsRight_iff_nodup, findsRight_iff_absent⟩

/-- The second `hi` is looked for without an end. -/
theorem adding_stuck : ¬ AddsRight [[104, 105], [104, 105]] ∧
    ¬ FindsRight [⟨[104, 105], 1⟩] [104, 105] := by
  rw [addsRight_iff_nodup, findsRight_iff_absent]
  decide

/-! ### The buffer -/

/-- `count_words` writes to its buffer only, however long it runs. -/
def WritesInside (junk : Nat → Int) (wclist : List WordCount) (s : List UInt8) : Prop :=
  ∀ rounds, (countWords rounds junk wclist s).ending ≠ .fault

/-- The first run that is too long is not reached, since a word before it is in the list. -/
def Guarded (wclist : List WordCount) (s : List UInt8) : Prop :=
  ∀ pre r post, runs isLetter (before s) = pre ++ r :: post → MAX_WORD_LEN < r.length →
    (∀ x ∈ pre, x.length ≤ MAX_WORD_LEN) → ¬ New wclist (calls false pre)

variable {armed : Bool} {pre post rs : List (List UInt8)} {r : List UInt8} {ps : List (List Int)}

/-- The run that is too long is reached when all words before it are new. -/
theorem passRuns_fault (hpre : ∀ x ∈ pre, x ≠ []) (hshort : ∀ x ∈ pre, x.length ≤ MAX_WORD_LEN)
    (hlong : MAX_WORD_LEN < r.length) (hnew : New l (calls armed pre))
    (hrounds : l.length + pre.length < rounds) :
    ∃ ps', passRuns rounds armed (pre ++ r :: post) l ps = .error ⟨ps', .fault⟩ := by
  induction pre generalizing l ps armed with
  | nil =>
      rw [List.nil_append, passRuns, if_pos hlong]
      exact ⟨ps, rfl⟩
  | cons x pre ih =>
      have hpre' : ∀ x ∈ pre, x ≠ [] := fun x hx => hpre x (List.mem_cons_of_mem _ hx)
      have hshort' : ∀ x ∈ pre, x.length ≤ MAX_WORD_LEN := fun x hx =>
        hshort x (List.mem_cons_of_mem _ hx)
      have hx := hshort x List.mem_cons_self
      rw [List.length_cons] at hrounds
      rw [calls_cons (hpre x List.mem_cons_self)] at hnew
      rw [List.cons_append, passRuns, if_neg (by omega)]
      by_cases htwo : stateOf armed x.length = 2
      · rw [if_pos htwo] at hnew ⊢
        obtain ⟨hword, hrest⟩ := new_cons.mp hnew
        rw [addWord_absent hword, if_pos (by omega)]
        exact ih hpre' hshort' hrest (by rw [List.length_cons]; omega)
      · rw [if_neg htwo] at hnew ⊢
        exact ih hpre' hshort' hnew (by omega)

/-- A write outside of the buffer comes from such a run. -/
theorem long_of_fault {ps' : List (List Int)} (hrs : ∀ x ∈ rs, x ≠ [])
    (h : passRuns rounds armed rs l ps = .error ⟨ps', .fault⟩) :
    ∃ pre r post, rs = pre ++ r :: post ∧ MAX_WORD_LEN < r.length ∧
      (∀ x ∈ pre, x.length ≤ MAX_WORD_LEN) ∧ New l (calls armed pre) := by
  induction rs generalizing l ps armed with
  | nil => cases h
  | cons x rs ih =>
      have hrs' : ∀ x ∈ rs, x ≠ [] := fun x hx => hrs x (List.mem_cons_of_mem _ hx)
      rw [passRuns] at h
      by_cases hlong : MAX_WORD_LEN < x.length
      · exact ⟨[], x, rs, rfl, hlong, nofun, List.nodup_nil, nofun⟩
      rw [if_neg hlong] at h
      have hcons : ∀ pre : List (List UInt8), (∀ y ∈ pre, y.length ≤ MAX_WORD_LEN) →
          ∀ y ∈ x :: pre, y.length ≤ MAX_WORD_LEN := by
        intro pre hpre y hy
        rcases List.mem_cons.mp hy with rfl | hy
        · exact Nat.le_of_not_lt hlong
        · exact hpre y hy
      by_cases htwo : stateOf armed x.length = 2
      · rw [if_pos htwo] at h
        cases hadd : addWord rounds l (lowered x) with
        | none =>
            rw [hadd] at h
            cases h
        | some l₁ =>
            rw [hadd] at h
            obtain ⟨hword, rfl⟩ := addWord_eq_some hadd
            obtain ⟨pre, r, post, rfl, hr, hpre, hnew⟩ := ih hrs' h
            refine ⟨x :: pre, r, post, rfl, hr, hcons pre hpre, ?_⟩
            rw [calls_cons (hrs x List.mem_cons_self), if_pos htwo]
            exact new_cons.mpr ⟨hword, hnew⟩
      · rw [if_neg htwo] at h
        obtain ⟨pre, r, post, rfl, hr, hpre, hnew⟩ := ih hrs' h
        refine ⟨x :: pre, r, post, rfl, hr, hcons pre hpre, ?_⟩
        rw [calls_cons (hrs x List.mem_cons_self), if_neg htwo]
        exact hnew

/-- **When the buffer is enough.** From left to right, the first run that is too long would
write behind it (`passRuns_fault`); from right to left, where it was written behind, such a
run was reached (`long_of_fault`). -/
theorem writes_inside_iff (junk : Nat → Int) (wclist : List WordCount) (s : List UInt8) :
    WritesInside junk wclist s ↔ Guarded wclist s := by
  have hrs : ∀ r ∈ runs isLetter (before s), r ≠ [] := fun r hr => ne_nil_of_mem_runs hr
  constructor
  · intro h pre r post hsplit hlong hshort hnew
    have hpre : ∀ x ∈ pre, x ≠ [] := fun x hx =>
      hrs x (hsplit ▸ List.mem_append_left _ hx)
    obtain ⟨ps, hfault⟩ := @passRuns_fault wclist (wclist.length + pre.length).succ false pre post
      r [] hpre hshort hlong hnew (Nat.lt_succ_self _)
    refine h (wclist.length + pre.length).succ ?_
    rw [countWords_eq, hsplit, hfault]
    rfl
  · intro h rounds hfault
    rw [countWords_eq] at hfault
    cases hrun : passRuns rounds false (runs isLetter (before s)) wclist [] with
    | ok result =>
        rw [hrun] at hfault
        cases hfault
    | error trace =>
        rw [hrun] at hfault
        obtain ⟨passed, ending⟩ := trace
        cases hfault
        obtain ⟨pre, r, post, hsplit, hlong, hshort, hnew⟩ := long_of_fault hrs hrun
        exact h pre r post hsplit hlong hshort hnew

/-- A run of 65 letters, on an empty list. -/
theorem writes_outside : ¬ WritesInside (fun _ => 0) [] (List.replicate 65 97) := by
  intro h
  exact h 1 (by decide)

end OsTools.Words

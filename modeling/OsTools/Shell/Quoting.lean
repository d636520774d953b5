import Mathlib.Algebra.GroupWithZero.Nat
import Mathlib.Algebra.Order.BigOperators.Group.List
import Mathlib.Algebra.Order.Group.Nat
import OsTools.Shell.Tokenizer
/-!
# OsTools.Shell.Quoting

Lines that are made out of words by quoting them, for `tokenize` of `hw-shell/tokenizer.c`.

`tokenize` ends a word only when it has collected a character of it (`if (n > 0)`), so that no
token is empty: the quoted words come back except for those without characters. It aborts if
and only if some word has 4095 characters or more, however long the line is, as long as its
index reaches the end (`tokenize_words`).

A line is related to its words by `QuotedLine`, one constructor for each word, so that what
`items` makes of it is an induction over the words (`QuotedLine.lineWords`). With that,
`tokenize_quoted` is the general statement about lines at the words of this one.
-/

namespace OsTools.Shell

/-! ### Lines of any length -/

/-- What `tokenize` returns behind `tokens` when `words` are on the rest of the line. -/
def outcome (tokens words : List (List UInt8)) : Except Violation (List (List UInt8)) :=
  if ∀ w ∈ words, w.length + 1 < nMax then .ok (tokens ++ words) else .error .aborted

section AnyLength

variable {s : Scan} {w rest line : List UInt8} {c : UInt8} {mode : Mode} {l : List Item}
variable {tokens words : List (List UInt8)}

theorem outcome_cons (hw : w.length + 1 < nMax) (tokens words : List (List UInt8)) :
    outcome (tokens ++ [w]) words = outcome tokens (w :: words) := by
  unfold outcome
  rw [List.append_assoc, List.singleton_append]
  simp only [List.forall_mem_cons, hw, true_and]

/-- A word that is too long already. -/
theorem outcome_long (hw : nMax ≤ w.length + 1) (tokens : List (List UInt8)) (l : List Item) :
    outcome tokens (wordsOf (w.map .literal ++ l)) = .error .aborted := by
  have hne : w ≠ [] := by
    intro hnil
    rw [hnil] at hw
    exact absurd hw (by decide)
  obtain ⟨v, later, hruns⟩ := runs_prefix (literals w) (by simpa using hne) l
  unfold outcome
  rw [if_neg]
  intro hall
  have hlong := hall ((w.map Item.literal ++ v).map Item.char) (by
    unfold wordsOf
    rw [hruns]
    exact List.mem_cons_self)
  simp only [List.length_map, List.length_append] at hlong
  omega

/-- The loop on the rest of a line. -/
def Outcome (mode : Mode) (rest : List UInt8) : Prop :=
  ∀ s w, Collected s w → (∀ c ∈ rest, c ≠ 0) → w.length + 1 < nMax →
    finish (readRest rest mode s) =
      outcome s.tokens (wordsOf (w.map .literal ++ items mode rest))

theorem finish_outcome (h : Collected s w) (hlen : w.length + 1 < nMax) :
    finish (.ok s) = outcome s.tokens (wordsOf (w.map .literal ++ [])) := by
  rw [finish_ok h (by omega), List.append_nil]
  unfold outcome
  rw [if_pos]
  intro v hv
  by_cases hne : w = []
  · subst hne
    cases hv
  · rw [wordsOf_literals hne, List.mem_singleton] at hv
    rwa [hv]

/-- A literal character. It may be the one with which the word gets too long. -/
theorem Outcome.put (hrest : Outcome mode rest) (h : Collected s w) (hc : c ≠ 0)
    (hnull : ∀ c ∈ rest, c ≠ 0) (hlen : w.length + 1 < nMax) :
    finish (putChar s c >>= fun s => checkLength s >>= readRest rest mode) =
      outcome s.tokens (wordsOf (w.map .literal ++ .literal c :: items mode rest)) := by
  obtain ⟨s', hput, h', htokens⟩ := h.put hc (by omega)
  have hlen' : (w ++ [c]).length = w.length + 1 := by simp
  have hitems : w.map Item.literal ++ .literal c :: items mode rest =
      (w ++ [c]).map Item.literal ++ items mode rest := by
    rw [List.map_append, List.append_assoc]
    rfl
  rw [hput, ok_bind, hitems]
  by_cases hroom : w.length + 2 < nMax
  · rw [checkLength_ok h' (by omega), ok_bind, hrest s' _ h' hnull (by omega), htokens]
  · have habort : checkLength s' = .error .aborted := by
      unfold checkLength
      rw [h'.n, if_pos (by omega)]
    rw [habort, outcome_long (by omega)]
    rfl

/-- White space. -/
theorem Outcome.space (hrest : Outcome .normal rest) (h : Collected s w)
    (hnull : ∀ c ∈ rest, c ≠ 0) (hlen : w.length + 1 < nMax) :
    finish (endWord s >>= fun s => checkLength s >>= readRest rest .normal) =
      outcome s.tokens (wordsOf (w.map .literal ++ .separator :: items .normal rest)) := by
  unfold endWord
  by_cases hne : w = []
  · subst hne
    rw [h.n, if_neg (by simp), ok_bind, checkLength_ok h hlen, ok_bind, hrest s [] h hnull hlen]
    simp [wordsOf_cons_separator]
  · obtain ⟨s', hpush, hn, htokens⟩ := h.push (by omega)
    have h' := collected_nil hn
    rw [h.n, if_pos (List.length_pos_iff.mpr hne), hpush, ok_bind,
      checkLength_ok h' (by simp [nMax]), ok_bind, hrest s' [] h' hnull (by simp [nMax]), htokens,
      outcome_cons hlen, wordsOf_separator hne]
    rfl

/-- The induction is on the number of characters left, of which a backslash takes two. -/
theorem loop_outcome (mode : Mode) (rest : List UInt8) : Outcome mode rest := by
  obtain ⟨k, hk⟩ : ∃ k, rest.length < k := ⟨_, Nat.lt_succ_self _⟩
  induction k generalizing mode rest with
  | zero => omega
  | succ k ih =>
      intro s w h hnull hlen
      cases rest with
      | nil =>
          have hitems : items mode [] = [] := by cases mode <;> rfl
          have hloop : readRest [] mode s = .ok s := by cases mode <;> rfl
          rw [hloop, hitems]
          exact finish_outcome h hlen
      | cons c rest =>
          rw [List.length_cons] at hk
          have hnull' : ∀ x ∈ rest, x ≠ 0 := fun x hx => hnull x (List.mem_cons_of_mem _ hx)
          have hcheck := checkLength_ok h hlen
          rcases round mode c rest with ⟨mode', hloop, hitems⟩ | ⟨hloop, hitems⟩ |
            ⟨d, later, hrest, hloop, hitems⟩ | ⟨-, hloop, hitems⟩ | ⟨-, hloop, hitems⟩
          · rw [hloop, hitems, hcheck, ok_bind]
            exact ih mode' rest (by omega) s w h hnull' hlen
          · rw [hloop, hitems, hcheck]
            exact finish_outcome h hlen
          · rw [hrest] at hnull' hk
            rw [List.length_cons] at hk
            rw [hloop, hitems]
            exact (ih mode later (by omega)).put h (hnull' d List.mem_cons_self)
              (fun x hx => hnull' x (List.mem_cons_of_mem _ hx)) hlen
          · rw [hloop, hitems]
            exact (ih mode rest (by omega)).put h (hnull c List.mem_cons_self) hnull' hlen
          · rw [hloop, hitems]
            exact (ih .normal rest (by omega)).space h hnull' hlen

/-- On a line of any length that the index can count `tokenize` returns its words, if all of
them fit into `token`. -/
theorem tokenize_words (hnull : ∀ c ∈ line, c ≠ 0) (hline : line.length < 2 ^ 32) :
    tokenize line = outcome [] (lineWords line) := by
  rw [tokenize_eq_finish hline]
  exact loop_outcome .normal line _ [] (collected_nil rfl) hnull (by decide)

end AnyLength

/-! ### Quoted words -/

/-- The characters of a word between two quotes. A quote of the same kind and a backslash are
behind a backslash, and other characters may be. -/
inductive Escaped (quote : UInt8) : List UInt8 → List UInt8 → Prop
  | nil : Escaped quote [] []
  | char {c : UInt8} {w text : List UInt8} (hquote : c ≠ quote) (hback : c ≠ BACKSLASH)
      (h : Escaped quote w text) : Escaped quote (c :: w) (c :: text)
  | backslash {c : UInt8} {w text : List UInt8} (h : Escaped quote w text) :
      Escaped quote (c :: w) (BACKSLASH :: c :: text)

/-- A word in single or double quotes, or with a backslash before each of its characters. -/
inductive Quoted : List UInt8 → List UInt8 → Prop
  | single {w text : List UInt8} (h : Escaped SQUOTE w text) :
      Quoted w (SQUOTE :: (text ++ [SQUOTE]))
  | double {w text : List UInt8} (h : Escaped DQUOTE w text) :
      Quoted w (DQUOTE :: (text ++ [DQUOTE]))
  | backslash {w : List UInt8} (hne : w ≠ []) : Quoted w (w.flatMap fun c => [BACKSLASH, c])

/-- The quoted words, joined with white space. -/
inductive QuotedLine : List (List UInt8) → List UInt8 → Prop
  | nil : QuotedLine [] []
  | last {w text : List UInt8} (h : Quoted w text) : QuotedLine [w] text
  | cons {w text sep line : List UInt8} {words : List (List UInt8)} (h : Quoted w text)
      (hne : sep ≠ []) (hsep : ∀ c ∈ sep, isspace c = true) (hline : QuotedLine words line) :
      QuotedLine (w :: words) (text ++ (sep ++ line))

section Quoting

variable {quote : UInt8} {w text sep line : List UInt8} {words : List (List UInt8)}
variable {l : List Item}

/-- The modes between quotes differ in the quote that ends them. -/
def InQuotes (mode : Mode) (quote : UInt8) : Prop :=
  (mode = .squote ∧ quote = SQUOTE) ∨ (mode = .dquote ∧ quote = DQUOTE)

theorem InQuotes.items_cons {mode : Mode} (hmode : InQuotes mode quote) (c : UInt8)
    (rest : List UInt8) : items mode (c :: rest) =
      if c = quote then items .normal rest
      else if c = BACKSLASH then
        match rest with
        | [] => []
        | d :: later => .literal d :: items mode later
      else .literal c :: items mode rest := by
  rcases hmode with ⟨rfl, rfl⟩ | ⟨rfl, rfl⟩
  · exact items.eq_def _ _
  · exact items.eq_def _ _

/-- Up to the quote that ends it a word stands for its characters. -/
theorem InQuotes.items_escaped {mode : Mode} (hmode : InQuotes mode quote)
    (h : Escaped quote w text) (rest : List UInt8) :
    items mode (text ++ quote :: rest) = w.map .literal ++ items .normal rest := by
  have hback : BACKSLASH ≠ quote := by
    rcases hmode with ⟨-, rfl⟩ | ⟨-, rfl⟩ <;> decide
  induction h with
  | nil =>
      rw [List.nil_append, hmode.items_cons, if_pos rfl]
      rfl
  | char hquote hplain h ih =>
      rw [List.cons_append, hmode.items_cons, if_neg hquote, if_neg hplain, ih]
      rfl
  | backslash h ih =>
      rw [List.cons_append, List.cons_append, hmode.items_cons, if_neg hback, if_pos rfl]
      dsimp only
      rw [ih]
      rfl

theorem items_backslash (w rest : List UInt8) :
    items .normal ((w.flatMap fun c => [BACKSLASH, c]) ++ rest) =
      w.map .literal ++ items .normal rest := by
  induction w with
  | nil => rfl
  | cons c w ih =>
      rw [List.flatMap_cons, List.append_assoc, List.cons_append, List.cons_append,
        List.nil_append, items.eq_def]
      dsimp only
      rw [if_neg (by decide), if_neg (by decide), if_pos rfl, ih]
      rfl

/-- A quoted word stands for its characters. -/
theorem Quoted.items (h : Quoted w text) (rest : List UInt8) :
    items .normal (text ++ rest) = w.map .literal ++ items .normal rest := by
  cases h with
  | single h =>
      rw [← InQuotes.items_escaped (Or.inl ⟨rfl, rfl⟩) h rest, List.cons_append,
        List.append_assoc, items.eq_def]
      dsimp only
      rw [if_pos rfl]
      rfl
  | double h =>
      rw [← InQuotes.items_escaped (Or.inr ⟨rfl, rfl⟩) h rest, List.cons_append,
        List.append_assoc, items.eq_def]
      dsimp only
      rw [if_neg (by decide), if_pos rfl]
      rfl
  | backslash hne => exact items_backslash w rest

theorem items_space {c : UInt8} (hc : isspace c = true) (rest : List UInt8) :
    items .normal (c :: rest) = .separator :: items .normal rest := by
  have hne : c ≠ SQUOTE ∧ c ≠ DQUOTE ∧ c ≠ BACKSLASH := by
    refine ⟨?_, ?_, ?_⟩ <;>
    · intro heq
      rw [heq] at hc
      exact absurd hc (by decide)
  rw [items.eq_def]
  dsimp only
  rw [if_neg hne.1, if_neg hne.2.1, if_neg hne.2.2, if_pos hc]

/-- White space between words. -/
theorem wordsOf_space (hsep : ∀ c ∈ sep, isspace c = true) (rest : List UInt8) :
    wordsOf (items .normal (sep ++ rest)) = wordsOf (items .normal rest) := by
  induction sep with
  | nil => rfl
  | cons c sep ih =>
      obtain ⟨hc, hsep⟩ := List.forall_mem_cons.mp hsep
      rw [List.cons_append, items_space hc, wordsOf_cons_separator, ih hsep]

/-- A word ends at the white space, and is one if it has characters. -/
theorem wordsOf_word (w : List UInt8) (l : List Item) :
    wordsOf (w.map .literal ++ .separator :: l) = [w].filter (· ≠ []) ++ wordsOf l := by
  by_cases hne : w = []
  · subst hne
    exact wordsOf_cons_separator l
  · rw [wordsOf_separator hne]
    simp [hne]

/-- The words of a line of quoted words are those with characters. -/
theorem QuotedLine.lineWords (h : QuotedLine words line) :
    lineWords line = words.filter (· ≠ []) := by
  unfold Shell.lineWords
  induction h with
  | nil => rfl
  | @last w text h =>
      have hitems := h.items []
      rw [List.append_nil] at hitems
      rw [hitems]
      by_cases hne : w = []
      · subst hne
        rfl
      · show wordsOf (w.map .literal ++ []) = _
        rw [List.append_nil, wordsOf_literals hne]
        simp [hne]
  | @cons w text sep line words h hne hsep hline ih =>
      obtain ⟨c, sep, rfl⟩ := List.exists_cons_of_ne_nil hne
      obtain ⟨hc, hsep⟩ := List.forall_mem_cons.mp hsep
      rw [h.items, List.cons_append, items_space hc, wordsOf_word, wordsOf_space hsep, ih,
        ← List.filter_append, List.singleton_append]

theorem Escaped.ne_null (h : Escaped quote w text) (hw : ∀ c ∈ w, c ≠ 0) : ∀ c ∈ text, c ≠ 0 := by
  induction h with
  | nil => exact hw
  | char hquote hback h ih =>
      rw [List.forall_mem_cons] at hw ⊢
      exact ⟨hw.1, ih hw.2⟩
  | backslash h ih =>
      rw [List.forall_mem_cons] at hw
      rw [List.forall_mem_cons, List.forall_mem_cons]
      exact ⟨by decide, hw.1, ih hw.2⟩

theorem Quoted.ne_null (h : Quoted w text) (hw : ∀ c ∈ w, c ≠ 0) : ∀ c ∈ text, c ≠ 0 := by
  cases h with
  | single h =>
      have htext := h.ne_null hw
      simp only [List.mem_cons, List.mem_append, List.not_mem_nil, or_false]
      rintro c (rfl | hc | rfl)
      · decide
      · exact htext c hc
      · decide
  | double h =>
      have htext := h.ne_null hw
      simp only [List.mem_cons, List.mem_append, List.not_mem_nil, or_false]
      rintro c (rfl | hc | rfl)
      · decide
      · exact htext c hc
      · decide
  | backslash hne =>
      intro c hc
      obtain ⟨d, hd, hc⟩ := List.mem_flatMap.mp hc
      simp only [List.mem_cons, List.not_mem_nil, or_false] at hc
      rcases hc with rfl | rfl
      · decide
      · exact hw c hd

theorem QuotedLine.ne_null (h : QuotedLine words line) (hwords : ∀ w ∈ words, ∀ c ∈ w, c ≠ 0) :
    ∀ c ∈ line, c ≠ 0 := by
  induction h with
  | nil => simp
  | last h => exact h.ne_null (hwords _ List.mem_cons_self)
  | cons h hne hsep hline ih =>
      obtain ⟨hw, hwords⟩ := List.forall_mem_cons.mp hwords
      have htext := h.ne_null hw
      have hline := ih hwords
      intro c hc
      rcases List.mem_append.mp hc with hc | hc
      · exact htext c hc
      rcases List.mem_append.mp hc with hc | hc
      · intro hnull
        have hspace := hsep c hc
        rw [hnull] at hspace
        exact absurd hspace (by decide)
      · exact hline c hc

end Quoting

/-- On a line of quoted words `tokenize` returns the words that have characters, in order, if
the words have fewer than 4095 characters in all and the line fewer than 2³². The general
statement about lines is `tokenize_words`; what is proved here is which words a quoted line
has. -/
theorem tokenize_quoted {words : List (List UInt8)} {line : List UInt8}
    (hline : QuotedLine words line) (hnull : ∀ w ∈ words, ∀ c ∈ w, c ≠ 0)
    (hlen : (words.map List.length).sum + 1 < nMax) (hcount : line.length < 2 ^ 32) :
    tokenize line = .ok (words.filter (· ≠ [])) := by
  have hword : ∀ w ∈ words, w.length + 1 < nMax := by
    intro w hw
    have hle := List.le_sum_of_mem (List.mem_map_of_mem (f := List.length) hw)
    omega
  rw [tokenize_words (hline.ne_null hnull) hcount, hline.lineWords]
  unfold outcome
  rw [if_pos fun w hw => hword w (List.mem_of_mem_filter hw)]
  rfl

/-- `'a b' "" \'` is two words. -/
theorem tokenize_quoted_words :
    tokenize [39, 97, 32, 98, 39, 32, 34, 34, 32, 92, 39] = .ok [[97, 32, 98], [39]] := by
  have hfirst : Quoted [97, 32, 98] (SQUOTE :: ([97, 32, 98] ++ [SQUOTE])) :=
    .single (.char (by decide) (by decide) (.char (by decide) (by decide)
      (.char (by decide) (by decide) .nil)))
  have hempty : Quoted [] (DQUOTE :: ([] ++ [DQUOTE])) := .double .nil
  have hlast : Quoted [39] ([39].flatMap fun c => [BACKSLASH, c]) :=
    .backslash (List.cons_ne_nil _ _)
  have hne : [(32 : UInt8)] ≠ [] := List.cons_ne_nil _ _
  have hspace : ∀ c ∈ [(32 : UInt8)], isspace c = true := List.forall_mem_singleton.mpr rfl
  have hline := QuotedLine.cons hfirst hne hspace (.cons hempty hne hspace (.last hlast))
  exact tokenize_quoted hline (by simp) (by decide) (by decide)

/-- `''` is no word. -/
theorem tokenize_drops_empty :
    QuotedLine [[]] [39, 39] ∧ (∀ w ∈ [([] : List UInt8)], ∀ c ∈ w, c ≠ 0) ∧
      (([[]] : List (List UInt8)).map List.length).sum + 1 < nMax ∧
      tokenize [39, 39] = .ok [] ∧ tokenize [39, 39] ≠ .ok [[]] := by
  have hline : QuotedLine [[]] [39, 39] := .last (.single .nil)
  have hnone : tokenize [39, 39] = .ok [] := by decide
  refine ⟨hline, by simp, by decide, hnone, ?_⟩
  rw [hnone]
  exact fun h => absurd (Except.ok.inj h) (by decide)

end OsTools.Shell

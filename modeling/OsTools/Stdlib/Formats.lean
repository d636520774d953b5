import OsTools.Stdlib.FormatInteger
/-!
# OsTools.Stdlib.Formats

Which format strings `__vprintf` gets through. A conversion that is cut off, by the end of the
string, leaves the pointer on the null; the loop then steps behind it. All other strings are
read to their end and no further (`vprintf_iff`).

## Proof shape

`Complete` is an inductive predicate on format strings with one case for a plain character,
one for `%%` and one for a conversion, and the loop takes the same cases. Everything up to
the type of a conversion is read by functions that stop at the null, since the null is no
flag, no digit and no modifier; each of them has a lemma that says what is left of the
string behind it (`parseFlags_ok`, `parseDigits_ok`, `parseType_ok`). A conversion itself
never fails (`convert_ok`): its number fits into the buffer, which is
`OsTools.Stdlib.FormatInteger`, and its error messages have no conversion but `%c`.

So the only thing that can go wrong in a round is the pointer at the null behind a
conversion (`Settles`), and the induction over the rounds carries the equivalence itself,
with both directions at once.
-/

namespace OsTools.Stdlib.Printf

open OsTools.CString

/-! ### Format strings -/

def isFlag (c : UInt8) : Bool :=
  c = ch '-' ∨ c = ch '+' ∨ c = ch ' ' ∨ c = ch '#' ∨ c = ch '0' ∨ c = 39

/-- What follows a `*` or a number. -/
def afterNumber (s : List UInt8) : List UInt8 :=
  if s.head? = some (ch '*') then s.tail else s.dropWhile isdigit

/-- What follows a precision. -/
def afterPrecision (s : List UInt8) : List UInt8 :=
  if s.head? = some (ch '.') then afterNumber s.tail else s

/-- What follows a length modifier. -/
def afterModifier : List UInt8 → List UInt8
  | [] => []
  | c :: s =>
      if c = ch 'h' ∨ c = ch 'l' then if s.head? = some c then s.tail else s
      else if c = ch 'j' ∨ c = ch 't' ∨ c = ch 'z' then s
      else c :: s

/-- What follows the flags, the width, the precision and the length modifier of a conversion. -/
def afterOptions (s : List UInt8) : List UInt8 :=
  afterModifier (afterPrecision (afterNumber (s.dropWhile isFlag)))

/-- No conversion is cut off: there is a character behind its options. -/
inductive Complete : List UInt8 → Prop
  | nil : Complete []
  | literal {c : UInt8} {s : List UInt8} (hc : c ≠ ch '%') (hs : Complete s) : Complete (c :: s)
  | percent {s : List UInt8} (hs : Complete s) : Complete (ch '%' :: ch '%' :: s)
  | conversion {c : UInt8} {s rest : List UInt8} (hs : s.head? ≠ some (ch '%'))
      (hc : afterOptions s = c :: rest) (hrest : Complete rest) : Complete (ch '%' :: s)

variable {s rest : List UInt8} {c : UInt8}

theorem complete_literal (hc : c ≠ ch '%') : Complete (c :: s) ↔ Complete s := by
  constructor
  · intro h
    cases h with
    | literal _ hs => exact hs
    | percent _ => exact absurd rfl hc
    | conversion _ _ _ => exact absurd rfl hc
  · exact .literal hc

theorem complete_percent : Complete (ch '%' :: ch '%' :: s) ↔ Complete s := by
  constructor
  · intro h
    cases h with
    | literal hc _ => exact absurd rfl hc
    | percent hs => exact hs
    | conversion hs _ _ => exact absurd rfl hs
  · exact .percent

theorem complete_conversion (hs : s.head? ≠ some (ch '%')) : Complete (ch '%' :: s) ↔
    ∃ c rest, afterOptions s = c :: rest ∧ Complete rest := by
  constructor
  · intro h
    cases h with
    | literal hc _ => exact absurd rfl hc
    | percent _ => exact absurd rfl hs
    | conversion _ hc hrest => exact ⟨_, _, hc, hrest⟩
  · rintro ⟨c, rest, hc, hrest⟩
    exact .conversion hs hc hrest

/-! ### `parse_conversion` -/

variable {args : Args}

theorem add_isSome (f : Flags) (c : UInt8) : (f.add c).isSome = isFlag c := by
  unfold Flags.add isFlag
  repeat' split
  all_goals simp [*]

/-- The null is not a flag. -/
theorem parseFlags_ok (s : List UInt8) (f : Flags) :
    ∃ f', parseFlags (s ++ [0]) f = .ok (f', s.dropWhile isFlag ++ [0]) := by
  induction s generalizing f with
  | nil => exact ⟨f, rfl⟩
  | cons c s ih =>
      rw [List.cons_append, parseFlags]
      have hadd := add_isSome f c
      cases hc : f.add c with
      | none =>
          rw [hc] at hadd
          rw [List.dropWhile_cons_of_neg (by rw [← hadd]; simp)]
          exact ⟨f, rfl⟩
      | some f' =>
          rw [hc] at hadd
          rw [List.dropWhile_cons_of_pos hadd.symm]
          exact ih f'

/-- The null is not a digit. -/
theorem parseDigits_ok (s : List UInt8) (n : Int) :
    ∃ n', parseDigits (s ++ [0]) n = .ok (n', s.dropWhile isdigit ++ [0]) := by
  induction s generalizing n with
  | nil => exact ⟨n, rfl⟩
  | cons c s ih =>
      rw [List.cons_append, parseDigits]
      cases hc : isdigit c with
      | true =>
          rw [List.dropWhile_cons_of_pos hc]
          exact ih _
      | false =>
          rw [List.dropWhile_cons_of_neg (by rw [hc]; simp)]
          exact ⟨n, rfl⟩

theorem peek_ok (s : List UInt8) : peek (s ++ [0]) = .ok (s.head?.getD 0) := by
  cases s <;> rfl

theorem tail_append (h : s.head? = some c) : (s ++ [0]).tail = s.tail ++ [0] := by
  cases s with
  | nil => cases h
  | cons _ _ => rfl

theorem head?_iff {x : UInt8} (hx : x ≠ 0) : s.head?.getD 0 = x ↔ s.head? = some x := by
  cases s with
  | nil => simp [Ne.symm hx]
  | cons _ _ => simp

theorem parseWidth_ok (s : List UInt8) (args : Args) :
    ∃ width args', parseWidth (s ++ [0]) args = .ok (width, afterNumber s ++ [0], args') := by
  unfold parseWidth afterNumber
  rw [peek_ok, ok_bind]
  by_cases hstar : s.head? = some (ch '*')
  · rw [if_pos ((head?_iff (by decide)).mpr hstar), if_pos hstar, tail_append hstar]
    exact ⟨_, _, rfl⟩
  · obtain ⟨width, hwidth⟩ := parseDigits_ok s 0
    rw [if_neg fun h => hstar ((head?_iff (by decide)).mp h), if_neg hstar, hwidth]
    exact ⟨_, _, rfl⟩

theorem parsePrecision_ok (s : List UInt8) (args : Args) : ∃ precision args',
    parsePrecision (s ++ [0]) args = .ok (precision, afterPrecision s ++ [0], args') := by
  unfold parsePrecision afterPrecision
  rw [peek_ok, ok_bind]
  by_cases hdot : s.head? = some (ch '.')
  · rw [if_pos ((head?_iff (by decide)).mpr hdot), if_pos hdot, tail_append hdot]
    exact parseWidth_ok s.tail args
  · rw [if_neg fun h => hdot ((head?_iff (by decide)).mp h), if_neg hdot]
    exact ⟨_, _, rfl⟩

/-- Both doubled modifiers. -/
theorem parseType_double {x : UInt8} (hx : x ≠ 0) (double single : Size) :
    ∃ type, (do if (← peek (s ++ [0])) = x then .ok (double, (s ++ [0]).tail)
                else .ok (single, s ++ [0]) : Except Fault (Size × List UInt8)) =
      .ok (type, (if s.head? = some x then s.tail else s) ++ [0]) := by
  rw [peek_ok, ok_bind]
  by_cases hhead : s.head? = some x
  · rw [if_pos ((head?_iff hx).mpr hhead), if_pos hhead, tail_append hhead]
    exact ⟨_, rfl⟩
  · rw [if_neg fun h => hhead ((head?_iff hx).mp h), if_neg hhead]
    exact ⟨_, rfl⟩

/-- The length modifier is read, if there is one. The null behind the string is none. -/
theorem parseType_ok (s : List UInt8) :
    ∃ type, parseType (s ++ [0]) = .ok (type, afterModifier s ++ [0]) := by
  cases s with
  | nil => exact ⟨.int, rfl⟩
  | cons c s =>
      unfold parseType afterModifier
      by_cases hh : c = ch 'h'
      · subst hh
        exact parseType_double (by decide) .char .short
      · by_cases hl : c = ch 'l'
        · subst hl
          exact parseType_double (by decide) .longlong .long
        · rw [List.cons_append, peek, ok_bind]
          dsimp only [List.tail_cons]
          rw [if_neg hh, if_neg hl, if_neg (not_or.mpr ⟨hh, hl⟩)]
          by_cases hj : c = ch 'j'
          · rw [if_pos hj, if_pos (.inl hj)]
            exact ⟨_, rfl⟩
          · by_cases ht : c = ch 't'
            · rw [if_neg hj, if_pos ht, if_pos (.inr (.inl ht))]
              exact ⟨_, rfl⟩
            · by_cases hz : c = ch 'z'
              · rw [if_neg hj, if_neg ht, if_pos hz, if_pos (.inr (.inr hz))]
                exact ⟨_, rfl⟩
              · rw [if_neg hj, if_neg ht, if_neg hz,
                  if_neg (not_or.mpr ⟨hj, not_or.mpr ⟨ht, hz⟩⟩)]
                exact ⟨_, rfl⟩

/-- `parse_conversion` never passes the null. -/
theorem parseConversion_ok (s : List UInt8) (args : Args) : ∃ conversion args',
    parseConversion (s ++ [0]) args = .ok (conversion, afterOptions s ++ [0], args') := by
  obtain ⟨flags, hflags⟩ := parseFlags_ok s ⟨false, false, false, false, false, false⟩
  obtain ⟨width, args₁, hwidth⟩ := parseWidth_ok (s.dropWhile isFlag) args
  obtain ⟨precision, args₂, hprecision⟩ :=
    parsePrecision_ok (afterNumber (s.dropWhile isFlag)) args₁
  obtain ⟨type, htype⟩ := parseType_ok (afterPrecision (afterNumber (s.dropWhile isFlag)))
  unfold parseConversion afterOptions
  rw [hflags, ok_bind]
  dsimp only
  rw [hwidth, ok_bind]
  dsimp only
  rw [hprecision, ok_bind]
  dsimp only
  rw [htype]
  exact ⟨_, _, rfl⟩

/-! ### The conversions -/

theorem formatSigned_ok (value : Int) (c : Conversion) : ∃ out, formatSigned value c = .ok out :=
  formatInteger_ok (by decide) _ _ _ _

theorem formatDouble_ok (d : Double) (c : Conversion) : ∃ out, formatDouble d c = .ok out := by
  unfold formatDouble
  obtain ⟨whole, hwhole⟩ := @formatInteger_ok baseD (by decide)
    (UInt64.ofInt (if d.first < 0 then toInt (-d.first) else d.first)) true d.negative
    { c with precision := -1 }
  dsimp only
  rw [hwhole, ok_bind]
  obtain ⟨fraction, hfraction⟩ := @formatInteger_ok baseD (by decide)
    (UInt64.ofInt (if d.rest (floatPrecision c.precision).toNat < 0 then
      toInt (-d.rest (floatPrecision c.precision).toNat)
      else d.rest (floatPrecision c.precision).toNat)) false false
    { c with precision := if floatPrecision c.precision = 0 then 1 else floatPrecision c.precision }
  rw [hfraction]
  exact ⟨_, rfl⟩

theorem map_ok {x : Except Fault (List UInt8)} (h : ∃ out, x = .ok out) (args : Args) :
    ∃ r, x.map (·, args) = .ok r := by
  obtain ⟨out, rfl⟩ := h
  exact ⟨_, rfl⟩

theorem ite_ok {α : Type} {p : Prop} [Decidable p] {x y : Except Fault α} (hx : ∃ r, x = .ok r)
    (hy : ∃ r, y = .ok r) : ∃ r, (if p then x else y) = .ok r := by
  split
  · exact hx
  · exact hy

/-- A conversion always returns, if the error messages can be printed. -/
theorem convert_ok {print : List UInt8 → UInt8 → Except Fault (List UInt8)}
    (hkernel : ∀ f, ∃ out, print noKernel f = .ok out)
    (hconversion : ∀ f, ∃ out, print noConversion f = .ok out) (c : Conversion) (f : UInt8)
    (args : Args) : ∃ r, convert print c f args = .ok r := by
  unfold convert
  refine ite_ok (map_ok (formatSigned_ok _ _) _) ?_
  refine ite_ok (map_ok (formatInteger_ok (by decide) _ _ _ _) _) ?_
  refine ite_ok (map_ok (formatInteger_ok (by decide) _ _ _ _) _) ?_
  refine ite_ok (map_ok (formatInteger_ok (by decide) _ _ _ _) _) ?_
  refine ite_ok (map_ok (formatInteger_ok (by decide) _ _ _ _) _) ?_
  refine ite_ok ⟨_, rfl⟩ ?_
  refine ite_ok ⟨_, rfl⟩ ?_
  refine ite_ok (map_ok (formatInteger_ok (by decide) _ _ _ _) _) ?_
  refine ite_ok (map_ok (formatDouble_ok _ _) _) ?_
  refine ite_ok (map_ok (hkernel f) _) ?_
  exact map_ok (hconversion f) _

/-- An error message has no conversion that is not known. -/
theorem printError_noKernel (c : UInt8) : printError noKernel c =
    .ok ([60, 60, 110, 111, 32, 37] ++ [(charArg c 0).word.toUInt8] ++
      [32, 105, 110, 32, 107, 101, 114, 110, 101, 108, 62, 62]) := rfl

theorem printError_noConversion (c : UInt8) : printError noConversion c =
    .ok ([60, 60, 110, 111, 32, 37] ++ [(charArg c 0).word.toUInt8] ++
      [32, 99, 111, 110, 118, 101, 114, 115, 105, 111, 110, 62, 62]) := rfl

theorem convert_printError (c : Conversion) (f : UInt8) (args : Args) :
    ∃ r, convert printError c f args = .ok r :=
  convert_ok (fun f => ⟨_, printError_noKernel f⟩) (fun f => ⟨_, printError_noConversion f⟩) c f args

/-! ### The loop -/

/-- The computation returns if `p` holds, and else reads a character behind the format string. -/
def Settles (x : Except Fault (List UInt8)) (p : Prop) : Prop :=
  (p → ∃ out, x = .ok out) ∧ (¬ p → x = .error .format)

theorem Settles.map {x : Except Fault (List UInt8)} {p q : Prop} (h : Settles x p) (hq : q ↔ p)
    (g : List UInt8 → List UInt8) : Settles (do .ok (g (← x))) q := by
  constructor
  · intro hp
    obtain ⟨out, rfl⟩ := h.1 (hq.mp hp)
    exact ⟨g out, rfl⟩
  · intro hp
    rw [h.2 (mt hq.mpr hp)]
    rfl

theorem afterNumber_suffix (s : List UInt8) : afterNumber s <:+ s := by
  unfold afterNumber
  split
  · exact List.tail_suffix s
  · exact List.dropWhile_suffix _

theorem afterPrecision_suffix (s : List UInt8) : afterPrecision s <:+ s := by
  unfold afterPrecision
  split
  · exact (afterNumber_suffix s.tail).trans (List.tail_suffix s)
  · exact List.suffix_refl s

theorem afterModifier_suffix (s : List UInt8) : afterModifier s <:+ s := by
  cases s with
  | nil => exact List.suffix_refl _
  | cons c s =>
      rw [afterModifier]
      split
      · split
        · exact (List.tail_suffix s).trans (List.suffix_cons c s)
        · exact List.suffix_cons c s
      · split
        · exact List.suffix_cons c s
        · exact List.suffix_refl _

theorem afterOptions_suffix (s : List UInt8) : afterOptions s <:+ s :=
  (afterModifier_suffix _).trans <| (afterPrecision_suffix _).trans <|
    (afterNumber_suffix _).trans (List.dropWhile_suffix _)

/-- What the loop does behind a `%` that begins a conversion: the conversion returns, and with
nothing left the pointer goes behind the null. -/
theorem conversion_settles {rounds : Nat} (hpos : 0 < rounds) (args : Args)
    (hrest : ∀ c rest args, afterOptions s = c :: rest →
      Settles (vprintfLoop printError rounds (rest ++ [0]) args) (Complete rest)) :
    Settles (do
      let (conversion, format, args) ← parseConversion (s ++ [0]) args
      let (out, args) ← convert printError conversion (← peek format) args
      .ok (out ++ (← vprintfLoop printError rounds format.tail args)))
      (∃ c rest, afterOptions s = c :: rest ∧ Complete rest) := by
  obtain ⟨conversion, args₁, hparse⟩ := parseConversion_ok s args
  rw [hparse, ok_bind]
  dsimp only
  rw [peek_ok, ok_bind]
  obtain ⟨⟨out, args₂⟩, hconvert⟩ :=
    convert_printError conversion ((afterOptions s).head?.getD 0) args₁
  rw [hconvert, ok_bind]
  dsimp only
  cases hafter : afterOptions s with
  | nil =>
      obtain ⟨rounds, rfl⟩ := Nat.exists_eq_succ_of_ne_zero (Nat.ne_of_gt hpos)
      constructor
      · rintro ⟨c, rest, hcons, _⟩
        cases hcons
      · intro _
        rfl
  | cons c rest =>
      refine (hrest c rest args₂ hafter).map ?_ (out ++ ·)
      constructor
      · rintro ⟨c', rest', hcons, hcomplete⟩
        cases hcons
        exact hcomplete
      · intro hcomplete
        exact ⟨c, rest, rfl, hcomplete⟩

/-- A round takes at least one character. -/
theorem vprintfLoop_settles {rounds : Nat} (h : 0 ∉ s) (hrounds : s.length < rounds) (args : Args) :
    Settles (vprintfLoop printError rounds (s ++ [0]) args) (Complete s) := by
  induction rounds generalizing s args with
  | zero => exact absurd hrounds (Nat.not_lt_zero _)
  | succ rounds ih =>
      rw [vprintfLoop]
      cases s with
      | nil => exact ⟨fun _ => ⟨[], rfl⟩, fun hnot => absurd .nil hnot⟩
      | cons c s =>
          rw [List.mem_cons, not_or] at h
          rw [List.length_cons] at hrounds
          rw [List.cons_append, peek, ok_bind, if_neg (Ne.symm h.1), List.tail_cons]
          by_cases hpercent : c = ch '%'
          · subst hpercent
            rw [if_neg (not_not_intro rfl)]
            dsimp only
            rw [peek_ok, ok_bind]
            by_cases hs : s.head? = some (ch '%')
            · rw [if_pos ((head?_iff (by decide)).mpr hs)]
              obtain ⟨s, rfl⟩ : ∃ s', s = ch '%' :: s' := List.head?_eq_some_iff.mp hs
              rw [List.length_cons] at hrounds
              exact (ih (fun h0 => h.2 (List.mem_cons_of_mem _ h0)) (by omega) args).map
                complete_percent (ch '%' :: ·)
            · rw [if_neg fun h => hs ((head?_iff (by decide)).mp h)]
              have hsettles := @conversion_settles s rounds (by omega) args ?_
              · exact ⟨fun hp => hsettles.1 ((complete_conversion hs).mp hp),
                  fun hp => hsettles.2 (mt (complete_conversion hs).mpr hp)⟩
              · intro c rest args hafter
                have hsuffix := afterOptions_suffix s
                rw [hafter] at hsuffix
                have hlength := hsuffix.length_le
                rw [List.length_cons] at hlength
                exact ih (fun h0 => h.2 (hsuffix.subset (List.mem_cons_of_mem _ h0))) (by omega) args
          · rw [if_pos hpercent]
            exact (ih h.2 (by omega) args).map (complete_literal hpercent) (c :: ·)

/-- `__vprintf` returns, and no character behind the null is read, exactly if no conversion is
cut off. There are as many rounds as the string has characters, which is enough, since a round
takes one at least (`vprintfLoop_settles`). -/
theorem vprintf_iff (s : List UInt8) (h : 0 ∉ s) (args : Args) :
    (∃ out, vprintf (s ++ [0]) args = .ok out) ↔ Complete s := by
  have hsettles := @vprintfLoop_settles s ((s ++ [0]).length + 1) h
    (by rw [List.length_append]; omega) args
  constructor
  · rintro ⟨out, hout⟩
    by_contra hnot
    have herror := hsettles.2 hnot
    unfold vprintf at hout
    rw [hout] at herror
    cases herror
  · exact hsettles.1

/-- `"%5d%%"`. -/
theorem vprintf_iff_width :
    ∃ out, vprintf ([ch '%', ch '5', ch 'd', ch '%', ch '%'] ++ [0]) (charArg 1) = .ok out := by
  refine (vprintf_iff _ (by decide) _).mpr ?_
  exact .conversion (by decide) rfl (.percent .nil)

/-- `"100%"`. -/
theorem vprintf_percent :
    vprintf [ch '1', ch '0', ch '0', ch '%', 0] (charArg 1) = .error .format := by
  decide +kernel

end OsTools.Stdlib.Printf

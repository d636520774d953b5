import OsTools.Lib.Bytes
import OsTools.Stdlib.Printf
/-!
# OsTools.Stdlib.Snprintf

`vsnprintf` of `lib/stdio.c`, and `__vprintf` as it drives it: it hands each character to a
function `output`, which changes the data `aux` that `__vprintf` does not look at.

The functions of the namespace `Callback` are those of `OsTools.Stdlib.Printf` with these two
parameters. What they do to `aux` is what `output` does for the text of the functions there, one
character after the other (`Callback.vprintf_eq`).

## Proof shape

The equation between the two versions of `__vprintf` is proved function by function, from
`output_dup` outwards, and each proof is the same: the text of a piece behind another is the
text of the two (`map_append`). The loops are by induction on the rounds. After that nothing
is said about `aux` except through `emit`.

For `vsnprintf` there remains the helper, driven by one list of characters: `counted` is its
state in terms of how many have come by, and `emit_counted` is the induction over the list.
The null at the end goes where the position is, which is never behind the last byte of the
buffer.
-/

namespace OsTools.Stdlib.Printf

namespace Callback

section Model

variable {σ : Type} (output : UInt8 → σ → σ)

/-- `output` for each character of a text. -/
def emit (text : List UInt8) (aux : σ) : σ := text.foldl (fun aux c => output c aux) aux

/-- `output_dup`. -/
def outputDup (c : UInt8) : Nat → σ → σ
  | 0, aux => aux
  | cnt + 1, aux => outputDup c cnt (output c aux)

/-- `format_integer`. -/
def formatInteger (value : UInt64) (isSigned negative : Bool) (b : IntegerBase) (c : Conversion)
    (aux : σ) : Except Fault σ := do
  let sign := signOf isSigned negative c.flags
  let x := xOf value b c.flags
  let buf ← fillBuffer value b c
  let padCnt := toInt (c.width - buf.length - (if x ≠ 0 then 2 else 0) - sign.toList.length)
  let padCnt := if padCnt < 0 then 0 else padCnt
  let aux := if c.flags.minus = false ∧ c.flags.zero = false then
    outputDup output (ch ' ') padCnt.toNat aux else aux
  let aux := sign.elim aux fun s => output s aux
  let aux := if x ≠ 0 then output x (output (ch '0') aux) else aux
  let aux := if c.flags.zero then outputDup output (ch '0') padCnt.toNat aux else aux
  let aux := emit output buf aux
  .ok (if c.flags.minus then outputDup output (ch ' ') padCnt.toNat aux else aux)

/-- `format_string`. -/
def formatString (string : List UInt8) (c : Conversion) (aux : σ) : σ :=
  let length := (string.length : Int)
  let aux := if length < c.width ∧ c.flags.minus = false then
    outputDup output (ch ' ') (c.width - length).toNat aux else aux
  let aux := emit output string aux
  if length < c.width ∧ c.flags.minus then outputDup output (ch ' ') (c.width - length).toNat aux
  else aux

/-- The cases `'d'` and `'i'`. -/
def formatSigned (value : Int) (c : Conversion) (aux : σ) : Except Fault σ :=
  formatInteger output (UInt64.ofInt (if value < 0 then -value else value)) true (value < 0) baseD c
    aux

/-- The case `'f'`. -/
def formatDouble (d : Double) (c : Conversion) (aux : σ) : Except Fault σ := do
  let precision := floatPrecision c.precision
  let rest := d.rest precision.toNat
  let aux ← formatInteger output
    (UInt64.ofInt (if d.first < 0 then toInt (-d.first) else d.first)) true d.negative baseD
    { c with precision := -1 } aux
  let aux := output (ch '.') aux
  formatInteger output (UInt64.ofInt (if rest < 0 then toInt (-rest) else rest)) false false baseD
    { c with precision := if precision = 0 then 1 else precision } aux

/-- The `switch` of `__vprintf`; `print` is `__printf` with one argument. -/
def convert (print : List UInt8 → UInt8 → σ → Except Fault σ) (c : Conversion) (f : UInt8)
    (args : Args) (aux : σ) : Except Fault (σ × Args) :=
  let a := (vaArg args).1
  let rest := (vaArg args).2
  if f = ch 'd' ∨ f = ch 'i' then (formatSigned output (signedValue a c.type) c aux).map (·, rest)
  else if f = ch 'o' then
    (formatInteger output (unsignedValue a c.type) false false baseO c aux).map (·, rest)
  else if f = ch 'u' then
    (formatInteger output (unsignedValue a c.type) false false baseD c aux).map (·, rest)
  else if f = ch 'x' then
    (formatInteger output (unsignedValue a c.type) false false baseSmallX c aux).map (·, rest)
  else if f = ch 'X' then
    (formatInteger output (unsignedValue a c.type) false false baseX c aux).map (·, rest)
  else if f = ch 'c' then .ok (formatString output [a.word.toUInt8] c aux, rest)
  else if f = ch 's' then
    let s := a.string.getD nullString
    .ok (formatString output (if c.precision < 0 then s else s.take c.precision.toNat) c aux, rest)
  else if f = ch 'p' then
    let flags : Flags := ⟨false, false, false, true, false, false⟩
    (formatInteger output a.word.toUInt64 false false baseSmallX { c with flags } aux).map (·, rest)
  else if f = ch 'f' then (formatDouble output a.double c aux).map (·, rest)
  else if f = ch 'e' ∨ f = ch 'E' ∨ f = ch 'g' ∨ f = ch 'G' ∨ f = ch 'n' then
    (print noKernel f aux).map (·, args)
  else (print noConversion f aux).map (·, args)

/-- The loop of `__vprintf`, with a bound on its rounds. -/
def vprintfLoop (print : List UInt8 → UInt8 → σ → Except Fault σ) :
    Nat → List UInt8 → Args → σ → Except Fault σ
  | 0, _, _, _ => .error .rounds
  | rounds + 1, format, args, aux => do
      let c ← peek format
      if c = 0 then .ok aux
      else if c ≠ ch '%' then vprintfLoop print rounds format.tail args (output c aux)
      else
        let format := format.tail
        if (← peek format) = ch '%' then
          vprintfLoop print rounds format.tail args (output (ch '%') aux)
        else
          let (conversion, format, args) ← parseConversion format args
          let (aux, args) ← convert output print conversion (← peek format) args aux
          vprintfLoop print rounds format.tail args aux

/-- `__printf` with an error message. -/
def printError (format : List UInt8) (c : UInt8) (aux : σ) : Except Fault σ :=
  vprintfLoop output (fun _ _ _ => .error .rounds) (format.length + 1) format (charArg c) aux

/-- `__vprintf`. -/
def vprintf (format : List UInt8) (args : Args) (aux : σ) : Except Fault σ :=
  vprintfLoop output (printError output) (format.length + 1) format args aux

end Model

/-! ### The characters are those of the text -/

section Emit

variable {σ : Type} {output : UInt8 → σ → σ}

@[simp] theorem emit_nil (aux : σ) : emit output [] aux = aux := rfl

@[simp] theorem emit_cons (c : UInt8) (text : List UInt8) (aux : σ) :
    emit output (c :: text) aux = emit output text (output c aux) := rfl

@[simp] theorem emit_append (text rest : List UInt8) (aux : σ) :
    emit output (text ++ rest) aux = emit output rest (emit output text aux) := by
  unfold emit
  rw [List.foldl_append]

/-- Text that is there under a condition. -/
theorem emit_ite {p : Prop} [Decidable p] (text : List UInt8) (aux : σ) :
    emit output (if p then text else []) aux = if p then emit output text aux else aux := by
  by_cases h : p <;> simp [h]

theorem outputDup_eq (c : UInt8) (cnt : Int) (aux : σ) :
    outputDup output c cnt.toNat aux = emit output (Printf.outputDup c cnt) aux := by
  unfold Printf.outputDup
  induction cnt.toNat generalizing aux with
  | zero => rfl
  | succ n ih =>
      rw [List.replicate_succ, emit_cons, ← ih]
      rfl

theorem formatInteger_eq (value : UInt64) (isSigned negative : Bool) (b : IntegerBase)
    (c : Conversion) (aux : σ) :
    formatInteger output value isSigned negative b c aux =
      (Printf.formatInteger value isSigned negative b c).map (emit output · aux) := by
  unfold formatInteger Printf.formatInteger
  cases fillBuffer value b c with
  | error f => rfl
  | ok buf =>
      have hpad : ∀ n : Int, (if n < 0 then 0 else n).toNat = n.toNat := by
        intro n
        split <;> omega
      have hsign : ∀ (sign : Option UInt8) (aux : σ),
          emit output sign.toList aux = sign.elim aux fun s => output s aux := by
        intro sign aux
        cases sign <;> rfl
      simp only [ok_bind, Except.map, hpad, outputDup_eq, emit_append, emit_ite, emit_cons, emit_nil,
        hsign]

theorem formatString_eq (string : List UInt8) (c : Conversion) (aux : σ) :
    formatString output string c aux = emit output (Printf.formatString string c) aux := by
  unfold formatString Printf.formatString
  simp only [outputDup_eq, emit_append, emit_ite]

theorem formatDouble_eq (d : Double) (c : Conversion) (aux : σ) :
    formatDouble output d c aux = (Printf.formatDouble d c).map (emit output · aux) := by
  unfold formatDouble Printf.formatDouble
  simp only [formatInteger_eq]
  cases Printf.formatInteger (UInt64.ofInt (if d.first < 0 then toInt (-d.first) else d.first)) true
      d.negative baseD { c with precision := -1 } with
  | error f => rfl
  | ok whole =>
      simp only [Except.map, ok_bind]
      generalize Printf.formatInteger _ false false baseD _ = fraction
      cases fraction with
      | error f => rfl
      | ok fraction => simp

/-- The error messages are the text of `print`. -/
def Prints (output : UInt8 → σ → σ) (printTo : List UInt8 → UInt8 → σ → Except Fault σ)
    (print : List UInt8 → UInt8 → Except Fault (List UInt8)) : Prop :=
  ∀ format c aux, printTo format c aux = (print format c).map (emit output · aux)

variable {printTo : List UInt8 → UInt8 → σ → Except Fault σ}
variable {print : List UInt8 → UInt8 → Except Fault (List UInt8)}

theorem map_ok {α β : Type} (f : α → β) (a : α) :
    Except.map f (.ok a : Except Fault α) = .ok (f a) := rfl

/-- The rest of a text, behind the part `text` of it. -/
theorem map_append (x : Except Fault (List UInt8)) (text : List UInt8) (aux : σ) :
    (x >>= fun rest => .ok (text ++ rest)).map (emit output · aux) =
      x.map (emit output · (emit output text aux)) := by
  cases x with
  | error f => rfl
  | ok rest => simp [Except.map]

theorem map_pair (x : Except Fault (List UInt8)) (args : Args) (aux : σ) :
    ((x.map (emit output · aux)).map (·, args) : Except Fault (σ × Args)) =
      (x.map (·, args)).map fun r => (emit output r.1 aux, r.2) := by
  cases x <;> rfl

theorem convert_eq (hprint : Prints output printTo print) (c : Conversion) (f : UInt8) (args : Args)
    (aux : σ) :
    convert output printTo c f args aux =
      (Printf.convert print c f args).map fun r => (emit output r.1 aux, r.2) := by
  unfold convert Printf.convert formatSigned Printf.formatSigned
  simp only [formatInteger_eq, formatString_eq, formatDouble_eq, hprint _ _ _, map_pair]
  simp only [apply_ite (Except.map _), map_ok]

/-- The induction is on the rounds; each of them hands on the text of one character of the format,
or of one conversion. -/
theorem vprintfLoop_eq (hprint : Prints output printTo print) (rounds : Nat) (format : List UInt8)
    (args : Args) (aux : σ) :
    vprintfLoop output printTo rounds format args aux =
      (Printf.vprintfLoop print rounds format args).map (emit output · aux) := by
  induction rounds generalizing format args aux with
  | zero => rfl
  | succ rounds ih =>
      unfold vprintfLoop Printf.vprintfLoop
      cases peek format with
      | error f => rfl
      | ok c =>
          rw [ok_bind, ok_bind]
          by_cases hnull : c = 0
          · rw [if_pos hnull, if_pos hnull]
            rfl
          rw [if_neg hnull, if_neg hnull]
          by_cases hother : c ≠ ch '%'
          · rw [if_pos hother, if_pos hother, ih]
            -- an ordinary character
            exact (map_append _ [c] aux).symm
          rw [if_neg hother, if_neg hother]
          dsimp only
          cases peek format.tail with
          | error f => rfl
          | ok c' =>
              rw [ok_bind, ok_bind]
              by_cases hpercent : c' = ch '%'
              · rw [if_pos hpercent, if_pos hpercent, ih]
                -- two percent signs are one
                exact (map_append _ [ch '%'] aux).symm
              rw [if_neg hpercent, if_neg hpercent]
              cases parseConversion format.tail args with
              | error f => rfl
              | ok parsed =>
                  obtain ⟨conversion, format', args'⟩ := parsed
                  rw [ok_bind, ok_bind]
                  dsimp only
                  cases peek format' with
                  | error f => rfl
                  | ok f =>
                      rw [ok_bind, ok_bind, convert_eq hprint]
                      cases Printf.convert print conversion f args' with
                      | error f => rfl
                      | ok converted =>
                          obtain ⟨out, args''⟩ := converted
                          rw [map_ok, ok_bind, ok_bind]
                          dsimp only
                          rw [ih]
                          exact (map_append _ out aux).symm

theorem prints_printError : Prints output (printError output) Printf.printError := by
  intro format c aux
  have hnone : Prints output (fun _ _ _ => .error .rounds) fun _ _ => .error .rounds :=
    fun _ _ _ => rfl
  exact vprintfLoop_eq hnone _ _ _ _

/-- **`__vprintf` hands its text on**, one character after the other, whatever `output` does with
them. -/
theorem vprintf_eq (format : List UInt8) (args : Args) (aux : σ) :
    vprintf output format args aux = (Printf.vprintf format args).map (emit output · aux) :=
  vprintfLoop_eq prints_printError _ _ _ _

end Emit

end Callback

/-! ### `vsnprintf` -/

/-- `INT_MAX`. -/
def intMax : Nat := 2 ^ 31 - 1

/-- `struct vsnprintf_aux`. -/
structure VsnprintfAux where
  /-- Current output position. -/
  p : Nat
  /-- Length of output string. -/
  length : Int
  /-- Max length of output string. -/
  maxLength : Int

/-- `vsnprintf_helper`, with the memory that it writes to. -/
def vsnprintfHelper (c : UInt8) (s : Mem × VsnprintfAux) : Mem × VsnprintfAux :=
  let aux := { s.2 with length := toInt (s.2.length + 1) }
  if s.2.length < s.2.maxLength then (s.1.put aux.p c, { aux with p := (aux.p + 1) % 2 ^ 32 })
  else (s.1, aux)

/-- `vsnprintf`: the memory, and what it returns. -/
def vsnprintf (m : Mem) (buffer bufSize : Nat) (format : List UInt8) (args : Args) :
    Except Fault (Mem × Int) := do
  let maxLength := if bufSize > 0 then toInt (bufSize - 1 : Nat) else 0
  let (m, aux) ← Callback.vprintf vsnprintfHelper format args (m, ⟨buffer, 0, maxLength⟩)
  -- Add null terminator.
  let m := if bufSize > 0 then m.put aux.p 0 else m
  .ok (m, aux.length)

theorem toInt_of_le {n : Nat} (h : n ≤ intMax) : toInt n = n := by
  unfold intMax at h
  unfold toInt
  exact Int.bmod_eq_of_le (by omega) (by omega)

/-- What the helper has done when `n` characters have come by: it has counted them all, and its
position is behind the last one that it had room for. -/
def counted (buffer maxLength n : Nat) : VsnprintfAux := ⟨buffer + min n maxLength, n, maxLength⟩

variable {m : Mem} {buffer bufSize maxLength n : Nat} {format text out : List UInt8} {args : Args}

theorem vsnprintfHelper_counted (c : UInt8) (hn : n < intMax)
    (hroom : 0 < maxLength → buffer + maxLength < 2 ^ 32) :
    vsnprintfHelper c (m, counted buffer maxLength n) =
      (if n < maxLength then m.put (buffer + n) c else m, counted buffer maxLength (n + 1)) := by
  have hlength : toInt ((n : Int) + 1) = ((n + 1 : Nat) : Int) := toInt_of_le hn
  unfold vsnprintfHelper counted
  dsimp only
  rw [hlength]
  by_cases hstore : n < maxLength
  · have hp : (buffer + min n maxLength + 1) % 2 ^ 32 = buffer + min (n + 1) maxLength := by
      have := hroom (by omega)
      rw [Nat.mod_eq_of_lt (by omega)]
      omega
    rw [if_pos (by omega), if_pos hstore, hp, Nat.min_eq_left (Nat.le_of_lt hstore)]
  · have hp : min n maxLength = min (n + 1) maxLength := by omega
    rw [if_neg (by omega), if_neg hstore, hp]

/-- The helper stores the characters that it has room for. The induction is on the text, of which
`n` characters have come by. -/
theorem emit_counted (hlength : n + text.length ≤ intMax)
    (hroom : 0 < maxLength → buffer + maxLength < 2 ^ 32) :
    Callback.emit vsnprintfHelper text (m, counted buffer maxLength n) =
      (m.blit (buffer + n) (min text.length (maxLength - n)) fun i => text.getD i 0,
        counted buffer maxLength (n + text.length)) := by
  induction text generalizing m n with
  | nil => simp [Mem.blit_zero]
  | cons c text ih =>
      rw [List.length_cons] at hlength
      rw [Callback.emit_cons, vsnprintfHelper_counted c (by omega) hroom, ih (by omega),
        List.length_cons, Nat.add_right_comm]
      refine Prod.ext ?_ rfl
      dsimp only
      by_cases hstore : n < maxLength
      · rw [if_pos hstore, ← Nat.add_assoc]
        have hcount : min (text.length + 1) (maxLength - n) =
            1 + min text.length (maxLength - (n + 1)) := by omega
        rw [hcount]
        refine Mem.blit_append (fun i hi => ?_) fun i hi => ?_
        · obtain rfl : i = 0 := by omega
          rfl
        · rw [Nat.add_comm 1 i, List.getD_cons_succ]
      · rw [if_neg hstore]
        have hcount : min text.length (maxLength - (n + 1)) = 0 := by omega
        have hcount' : min (text.length + 1) (maxLength - n) = 0 := by omega
        rw [hcount, hcount', Mem.blit_zero, Mem.blit_zero]

/-- **`vsnprintf`**: the buffer gets as many characters of the text of `__vprintf` as there is room
for before the null terminator, and nothing if there is no room at all. No other byte changes, and
the length of the whole text is returned. -/
theorem vsnprintf_correct (m : Mem) (hsize : bufSize ≤ intMax)
    (hroom : buffer + bufSize ≤ 2 ^ 32) (hout : vprintf format args = .ok out)
    (hlength : out.length < intMax) :
    ∃ m', vsnprintf m buffer bufSize format args = .ok (m', out.length) ∧
      (bufSize = 0 → m' = m) ∧
      (0 < bufSize →
        (∀ i < min out.length (bufSize - 1), out[i]? = some (m' (buffer + i))) ∧
        m' (buffer + min out.length (bufSize - 1)) = 0 ∧
        ∀ x, x < buffer ∨ buffer + min out.length (bufSize - 1) < x → m' x = m x) := by
  have hmax : (if bufSize > 0 then toInt (bufSize - 1 : Nat) else 0) = ((bufSize - 1 : Nat) : Int) := by
    by_cases hpos : bufSize > 0
    · rw [if_pos hpos, toInt_of_le (by omega)]
    · rw [if_neg hpos, Nat.sub_eq_zero_of_le (by omega)]
      rfl
  have hstart : (⟨buffer, 0, ((bufSize - 1 : Nat) : Int)⟩ : VsnprintfAux) =
      counted buffer (bufSize - 1) 0 := by simp [counted]
  have htext : Callback.vprintf vsnprintfHelper format args
      (m, ⟨buffer, 0, ((bufSize - 1 : Nat) : Int)⟩) =
        .ok (m.blit buffer (min out.length (bufSize - 1)) (fun i => out.getD i 0),
          counted buffer (bufSize - 1) out.length) := by
    rw [Callback.vprintf_eq, hout, Callback.map_ok, hstart,
      emit_counted (by omega) (by omega), Nat.add_zero, Nat.sub_zero, Nat.zero_add]
  unfold vsnprintf
  rw [hmax]
  dsimp only
  rw [htext, ok_bind]
  dsimp only [counted]
  refine ⟨_, rfl, fun hzero => ?_, fun hpos => ?_⟩
  · rw [if_neg (by omega), hzero, Nat.zero_sub, Nat.min_zero, Mem.blit_zero]
  · rw [if_pos hpos]
    refine ⟨fun i hi => ?_, Mem.put_same _ _ _, fun x hx => ?_⟩
    · have hlt : i < out.length := by omega
      rw [Mem.put_other (by omega), Mem.blit_of_inside hi]
      simp [List.getD, hlt]
    · rw [Mem.put_other (by omega), Mem.blit_of_outside (by omega)]

/-- `%d` with 42, in two bytes. -/
theorem vsnprintf_correct_two :
    let args : Args := fun _ => ⟨42, 42, none, ⟨0, fun _ => 0, false⟩⟩
    ∃ m', vsnprintf (fun _ => 7) 100 2 [ch '%', ch 'd', 0] args = .ok (m', 2) ∧
      m' 100 = ch '4' ∧ m' 101 = 0 ∧ m' 102 = 7 := by
  intro args
  have hout : vprintf [ch '%', ch 'd', 0] args = .ok [ch '4', ch '2'] := by decide +kernel
  obtain ⟨m', hexec, -, hroom⟩ := @vsnprintf_correct 100 2 _ _ args (fun _ => 7)
    (by decide) (by decide) hout (by decide)
  obtain ⟨htext, hnull, hsame⟩ := hroom (by decide)
  have hfirst := htext 0 (by decide)
  refine ⟨m', hexec, ?_, hnull, hsame 102 (Or.inr (by decide))⟩
  simpa using hfirst.symm

end OsTools.Stdlib.Printf

import OsTools.Shell.Commands
/-!
# OsTools.Shell.Bounds

The lines on which the shell keeps to its arrays. `Fits` says it of the words of a line,
without the arrays: there are limits to the words of a command without its redirections,
to all the words of a pipeline, and to the words of one task of it.

`processLine` goes through just on the lines that fit (`line_safe_iff`).

## Proof shape

For each array there is a predicate on the words alone, and an equivalence with what the
function that fills it does. `redirect` shifts the tokens that are left by two for every
operator, and `Left` describes the array in the middle of this, where an operator has left
its old tail behind: the tokens from the index on are those of the command that have not
been read. Its length at the end is a count of words that does not mention the array
(`redirect_len`).

In a pipeline the variables outlive the tasks. `Reached` says what they are when the loop
comes to a task, and the induction over the tasks (`pipeLoop_iff`) has three outcomes for
one of them: it fits, its words do not fit into `task`, or those of the whole line do not
fit into the other array.
-/

namespace OsTools.Shell

/-- A word that `redirect` takes for an operator. -/
def isOperator (w : Word) : Bool := first w = 62 ∨ first w = 60

/-- The number of words that are neither operators nor the file of one. -/
def argCount : List Word → Nat
  | [] => 0
  | [w] => if isOperator w then 0 else 1
  | w :: x :: rest => if isOperator w then argCount rest else argCount (x :: rest) + 1

/-- The last word is an operator without a file. -/
def dangling : List Word → Bool
  | [] => false
  | [w] => isOperator w
  | w :: x :: rest => if isOperator w then dangling rest else dangling (x :: rest)

/-- The tasks of a pipeline. -/
def tasks (tokens : List Word) : List (List Word) := tokens.splitOnP fun w => decide (w = PIPE)

/-- The words of a single command leave room for the null pointer. An operator without a file
takes the word before it away, and there has to be one. -/
def SingleFits (tokens : List Word) : Prop :=
  if dangling tokens then 1 ≤ argCount tokens ∧ argCount tokens ≤ 256
  else argCount tokens ≤ 255

/-- The words of a pipeline leave room for the null pointer, and so do those of each task. -/
def PipelineFits (tokens : List Word) : Prop :=
  tokens.length ≤ 1023 ∧ ∀ task ∈ tasks tokens, task.length ≤ 255

/-- For the test of `WordsFit` whether there is a `|`. -/
local instance : LawfulBEq Word := List.instLawfulBEq

/-- The words of a line leave room for the null pointers. -/
def WordsFit (tokens : List Word) : Prop :=
  lookup tokens[0]? = none → if PIPE ∈ tokens then PipelineFits tokens else SingleFits tokens

/-- The shell gets by with its arrays. -/
def Fits (line : List UInt8) : Prop := ¬ TooLong line ∧ WordsFit (lineWords line)

/-! ### Arrays -/

section Arrays

variable {a : Arr} {i : Nat} {w : Option Word} {tokens : List Word}

theorem set_ok (h : i < a.size) (w : Option Word) :
    a.set i w = .ok { a with slots := Function.update a.slots i w } := by
  unfold Arr.set
  rw [if_pos ⟨Int.natCast_nonneg i, by omega⟩, Int.toNat_natCast]

theorem set_error (h : a.size ≤ i) (w : Option Word) : a.set i w = .error .outOfBounds := by
  unfold Arr.set
  rw [if_neg (by omega)]

theorem get_ok (h : i < a.size) : a.get i = .ok (a.slots i) := by
  unfold Arr.get
  rw [if_pos ⟨Int.natCast_nonneg i, by omega⟩, Int.toNat_natCast]

/-- Copying tokens into an array that is large enough. -/
theorem fill_ok {n : Nat} (h : i + n ≤ a.size) :
    ∃ a', Arr.fill tokens n i a = .ok a' ∧ a'.size = a.size ∧
      ∀ m, a'.slots m = if i ≤ m ∧ m < i + n then tokens[m]? else a.slots m := by
  induction n generalizing a i with
  | zero =>
      refine ⟨a, rfl, rfl, fun m => ?_⟩
      rw [if_neg (by omega)]
  | succ n ih =>
      unfold Arr.fill
      rw [set_ok (by omega), ok_bind]
      obtain ⟨a', hfill, hsize, hslots⟩ := @ih
        { a with slots := Function.update a.slots i tokens[i]? } (i + 1) (by dsimp only; omega)
      refine ⟨a', hfill, hsize, fun m => ?_⟩
      rw [hslots m]
      dsimp only
      by_cases hm : m = i
      · subst hm
        rw [if_neg (by omega), Function.update_self, if_pos (by omega)]
      · rw [Function.update_of_ne hm]
        by_cases hin : i + 1 ≤ m ∧ m < i + 1 + n
        · rw [if_pos hin, if_pos (by omega)]
        · rw [if_neg hin, if_neg (by omega)]

/-- Copying them into one that is not. -/
theorem fill_error {n : Nat} (hi : i ≤ a.size) (h : a.size < i + n) :
    Arr.fill tokens n i a = .error .outOfBounds := by
  induction n generalizing a i with
  | zero => omega
  | succ n ih =>
      unfold Arr.fill
      by_cases hlt : i < a.size
      · rw [set_ok hlt, ok_bind]
        exact ih (by dsimp only; omega) (by dsimp only; omega)
      · rw [set_error (by omega)]
        rfl

end Arrays

/-! ### Single commands -/

section Single

variable {tokens : List Word} {i j n : Nat}

/-- `shift` moves the tokens that are left by two. -/
theorem getElem?_shift (h : j + n + 2 ≤ tokens.length) (m : Nat) :
    (shift n j tokens)[m]? = if j ≤ m ∧ m < j + n then tokens[m + 2]? else tokens[m]? := by
  induction n generalizing j tokens with
  | zero =>
      rw [if_neg (by omega)]
      rfl
  | succ n ih =>
      unfold shift
      rw [ih (by rw [List.length_set]; omega)]
      have hj : j + 2 < tokens.length := by omega
      by_cases hm : m = j
      · subst hm
        rw [if_neg (by omega), if_pos (by omega), List.getElem?_set_self (by omega),
          List.getElem?_eq_getElem hj]
        rfl
      · by_cases hin : j + 1 ≤ m ∧ m < j + 1 + n
        · rw [if_pos hin, if_pos (by omega), List.getElem?_set_ne (by omega)]
        · rw [if_neg hin, if_neg (by omega), List.getElem?_set_ne (by omega)]

/-- The tokens that `redirect` has left from `i` on. -/
structure Left (r : Redirect) (i : Nat) (l : List Word) : Prop where
  len : r.len = i + l.length
  tokens : ∀ j, j < l.length → r.tokens[i + j]? = l[j]?

/-- Taking an operator out. -/
theorem Left.takeOut {r : Redirect} {w x : Word} {l : List Word} (h : Left r i (w :: x :: l))
    (fd : Nat) : Left (takeOut r i fd) i l := by
  have hlen := h.len
  simp only [List.length_cons] at hlen
  have hrounds : (r.len - 2 - i).toNat = l.length := by omega
  have hbound : i + l.length + 2 ≤ r.tokens.length := by
    have hlast := h.tokens (l.length + 1) (by simp)
    have hsome : (w :: x :: l)[l.length + 1]?.isSome := by simp
    rw [← hlast] at hsome
    by_contra hlt
    rw [List.getElem?_eq_none (by omega)] at hsome
    cases hsome
  refine ⟨?_, fun j hj => ?_⟩
  · show r.len - 2 = _
    omega
  · show (shift (r.len - 2 - i).toNat i r.tokens)[i + j]? = _
    rw [hrounds, getElem?_shift hbound, if_pos (by omega)]
    exact h.tokens (j + 2) (by simp; omega)

/-- Going on to the next token. -/
theorem Left.next {r : Redirect} {w : Word} {l : List Word} (h : Left r i (w :: l)) :
    Left r (i + 1) l := by
  have hlen := h.len
  rw [List.length_cons] at hlen
  refine ⟨by omega, fun j hj => ?_⟩
  have := h.tokens (j + 1) (by simpa using hj)
  rw [Nat.add_right_comm, Nat.add_assoc, this]
  rfl

theorem redirectLoop_done {r : Redirect} (h : r.len ≤ i) (rounds : Nat) :
    redirectLoop rounds r i = r := by
  cases rounds with
  | zero => rfl
  | succ rounds =>
      unfold redirectLoop
      rw [if_neg (by omega)]

/-- The token at hand. -/
theorem Left.head {r : Redirect} {w : Word} {l : List Word} (h : Left r i (w :: l)) :
    i < r.len ∧ r.tokens[i]?.getD [] = w := by
  have hlen := h.len
  rw [List.length_cons] at hlen
  have hfirst := h.tokens 0 (by simp)
  rw [Nat.add_zero] at hfirst
  rw [hfirst]
  exact ⟨by omega, rfl⟩

/-- An operator. -/
theorem redirectLoop_takeOut {r : Redirect} {w : Word} {l : List Word} (h : Left r i (w :: l))
    (hw : isOperator w = true) (rounds : Nat) : redirectLoop (rounds + 1) r i =
      redirectLoop rounds (takeOut r i (if first w = 62 then 1 else 0)) i := by
  obtain ⟨hlt, hfirst⟩ := h.head
  unfold isOperator at hw
  rw [decide_eq_true_iff] at hw
  rw [redirectLoop, if_pos hlt, hfirst]
  dsimp only
  by_cases hgreater : first w = 62
  · rw [if_pos hgreater, if_pos hgreater]
  · rw [if_neg hgreater, if_pos (hw.resolve_left hgreater), if_neg hgreater]

theorem redirectLoop_operator {r : Redirect} {w : Word} {l : List Word} (h : Left r i (w :: l))
    (hw : isOperator w = true) (rounds : Nat) :
    ∃ fd, redirectLoop (rounds + 1) r i = redirectLoop rounds (takeOut r i fd) i :=
  ⟨_, redirectLoop_takeOut h hw rounds⟩

/-- Any other token. -/
theorem redirectLoop_word {r : Redirect} {w : Word} {l : List Word} (h : Left r i (w :: l))
    (hw : ¬ isOperator w = true) (rounds : Nat) :
    redirectLoop (rounds + 1) r i = redirectLoop rounds r (i + 1) := by
  obtain ⟨hlt, hfirst⟩ := h.head
  unfold isOperator at hw
  rw [decide_eq_true_iff, not_or] at hw
  rw [redirectLoop, if_pos hlt, hfirst]
  dsimp only
  rw [if_neg hw.1, if_neg hw.2]

/-- What `redirect` returns. An operator without a file takes a word away that came before. -/
theorem redirectLoop_len {r : Redirect} {l : List Word} {rounds : Nat} (h : Left r i l)
    (hrounds : l.length ≤ rounds) :
    (redirectLoop rounds r i).len = i + argCount l - if dangling l then 1 else 0 := by
  induction rounds generalizing r i l with
  | zero =>
      obtain rfl : l = [] := List.length_eq_zero_iff.mp (by omega)
      simpa [argCount, dangling, redirectLoop] using h.len
  | succ rounds ih =>
      match l, h, hrounds with
      | [], h, _ =>
          have hlen := h.len
          rw [redirectLoop_done (by rw [hlen]; simp)]
          simpa [argCount, dangling] using hlen
      | [w], h, _ =>
          have hlen := h.len
          by_cases hw : isOperator w = true
          · obtain ⟨fd, hstep⟩ := redirectLoop_operator h hw rounds
            have hout : (takeOut r i fd).len = i - 1 := by
              show r.len - 2 = _
              rw [hlen]
              simp
              omega
            rw [hstep, redirectLoop_done (by omega), hout]
            simp [argCount, dangling, hw]
          · rw [redirectLoop_word h hw, ih h.next (Nat.zero_le _)]
            simp [argCount, dangling, hw]
      | w :: x :: l, h, hrounds =>
          simp only [List.length_cons] at hrounds
          by_cases hw : isOperator w = true
          · obtain ⟨fd, hstep⟩ := redirectLoop_operator h hw rounds
            rw [hstep, ih (h.takeOut fd) (by omega), argCount, dangling, if_pos hw, if_pos hw]
          · rw [redirectLoop_word h hw, ih h.next (by simp; omega), argCount, dangling, if_neg hw,
              if_neg hw]
            push_cast
            omega

/-- The length that `redirect` returns. -/
theorem redirect_len (tokens : List Word) :
    (redirect tokens).len = argCount tokens - if dangling tokens then 1 else 0 := by
  have hstart : Left ⟨tokens, tokens.length, []⟩ 0 tokens :=
    ⟨by simp, fun j _ => by rw [Nat.zero_add]⟩
  have hlen := redirectLoop_len hstart (Nat.le_refl _)
  unfold redirect
  rw [hlen]
  simp

/-- The vector of a single command can be built just if the words without the redirections,
and the null behind them, fit into it. A negative length, from an operator without a file
name, is outside of the array too. -/
theorem singleArgs_iff (tokens : List Word) :
    (∃ t, singleArgs tokens = .ok t) ↔ SingleFits tokens := by
  have hlen := redirect_len tokens
  have hfits : SingleFits tokens ↔ 0 ≤ (redirect tokens).len ∧ (redirect tokens).len < 256 := by
    unfold SingleFits
    cases hd : dangling tokens with
    | true =>
        rw [hd] at hlen
        simp only [if_true] at hlen ⊢
        omega
    | false =>
        rw [hd] at hlen
        simp only [Bool.false_eq_true, if_false] at hlen ⊢
        omega
  rw [hfits]
  unfold singleArgs
  dsimp only
  have hsize : (Arr.new 256).size = 256 := rfl
  by_cases hlong : (redirect tokens).len.toNat ≤ 256
  · obtain ⟨t, hfill, htsize, -⟩ := @fill_ok (.new 256) 0 (redirect tokens).tokens
      (redirect tokens).len.toNat (by rw [hsize]; omega)
    rw [hfill, ok_bind]
    unfold Arr.set
    rw [htsize, hsize]
    constructor
    · intro h
      obtain ⟨t', h⟩ := h
      by_contra hnot
      rw [if_neg (by omega)] at h
      cases h
    · intro h
      rw [if_pos (by omega)]
      exact ⟨_, rfl⟩
  · rw [fill_error (Nat.zero_le _) (by rw [hsize]; omega)]
    constructor
    · intro h
      obtain ⟨t, h⟩ := h
      cases h
    · intro h
      omega

end Single

/-! ### Pipelines -/

section Pipeline

variable {t : Arr} {tokens rest stage : List Word} {s : Stage}

/-- `t` holds the tokens. -/
def Holds (t : Arr) (tokens : List Word) : Prop :=
  tokens.length < t.size ∧ ∀ i, i < tokens.length → t.slots i = tokens[i]?

/-- The variables in `pipe_executer2` when it has come to the tokens `rest`. -/
structure Reached (b : Nat) (tokens rest : List Word) (s : Stage) : Prop where
  rest : rest = tokens.drop s.i
  input : s.inputIndex < b
  output : s.outputIndex < b

theorem Reached.mono {b b' : Nat} (h : Reached b tokens rest s) (hb : b ≤ b') :
    Reached b' tokens rest s :=
  ⟨h.rest, Nat.lt_of_lt_of_le h.input hb, Nat.lt_of_lt_of_le h.output hb⟩

theorem Reached.head {b : Nat} {w : Word} (h : Reached b tokens (w :: rest) s) :
    s.i < tokens.length ∧ tokens[s.i]? = some w ∧ rest = tokens.drop (s.i + 1) := by
  have hlt : s.i < tokens.length := by
    by_contra hge
    have hrest := h.rest
    rw [List.drop_eq_nil_of_le (by omega)] at hrest
    cases hrest
  have hrest := h.rest
  rw [List.drop_eq_getElem_cons hlt] at hrest
  obtain ⟨hw, htail⟩ := List.cons.inj hrest
  exact ⟨hlt, by rw [List.getElem?_eq_getElem hlt, hw], htail⟩

/-- What a word does to the variables. -/
def Stage.word (s : Stage) (w : Word) : Stage where
  task := { s.task with slots := Function.update s.task.slots s.k (some w) }
  k := s.k + 1
  i := s.i + 1
  inputIndex := if w = LESS then s.k else s.inputIndex
  outputIndex := if w = GREATER then s.k else s.outputIndex

theorem stageLoop_step {w : Word} (rounds : Nat) (ht : Holds t tokens) (hlt : s.i < tokens.length)
    (hget : tokens[s.i]? = some w) (hk : s.k < s.task.size) (hw : w ≠ PIPE) :
    stageLoop t tokens.length (rounds + 1) s = stageLoop t tokens.length rounds (s.word w) := by
  have hw' : some w ≠ some PIPE := fun heq => hw (Option.some.inj heq)
  rw [stageLoop, if_pos hlt, get_ok (Nat.lt_trans hlt ht.1), ok_bind, ht.2 s.i hlt, hget,
    if_neg hw', set_ok hk]
  simp only [Option.some.injEq]
  rfl

/-- One word of a task. -/
theorem stageLoop_word {b : Nat} {w : Word} (rounds : Nat) (ht : Holds t tokens)
    (hs : Reached b tokens (w :: rest) s) (hk : s.k < s.task.size) (hw : w ≠ PIPE) (hb : s.k < b) :
    ∃ s', stageLoop t tokens.length (rounds + 1) s = stageLoop t tokens.length rounds s' ∧
      Reached b tokens rest s' ∧ s'.k = s.k + 1 ∧ s'.task.size = s.task.size := by
  obtain ⟨hlt, hget, hrest⟩ := hs.head
  refine ⟨s.word w, stageLoop_step rounds ht hlt hget hk hw, ⟨hrest, ?_, ?_⟩, rfl, rfl⟩
  · unfold Stage.word
    dsimp only
    split
    · exact hb
    · exact hs.input
  · unfold Stage.word
    dsimp only
    split
    · exact hb
    · exact hs.output

/-- The words of a task are put into `task` if there is room. -/
theorem stageLoop_ok {b rounds : Nat} (ht : Holds t tokens)
    (hs : Reached b tokens (stage ++ rest) s) (hk : s.k + stage.length ≤ b)
    (hsize : b ≤ s.task.size) (hword : ∀ w ∈ stage, w ≠ PIPE) (hend : ∀ w ∈ rest.head?, w = PIPE)
    (hrounds : stage.length ≤ rounds) :
    ∃ s', stageLoop t tokens.length rounds s = .ok s' ∧ Reached b tokens rest s' ∧
      s'.k = s.k + stage.length ∧ s'.task.size = s.task.size := by
  induction stage generalizing s rounds with
  | nil =>
      refine ⟨s, ?_, hs, rfl, rfl⟩
      cases rounds with
      | zero => rfl
      | succ rounds =>
          unfold stageLoop
          by_cases hlt : s.i < tokens.length
          · have hslot : t.slots s.i = some PIPE := by
              have hrest := hs.rest
              rw [List.nil_append, List.drop_eq_getElem_cons hlt] at hrest
              have hfirst := hend tokens[s.i] (by rw [hrest]; rfl)
              rw [ht.2 s.i hlt, List.getElem?_eq_getElem hlt, hfirst]
            rw [if_pos hlt, get_ok (Nat.lt_trans hlt ht.1), ok_bind, hslot, if_pos rfl]
          · rw [if_neg hlt]
  | cons w stage ih =>
      rw [List.length_cons] at hk hrounds
      obtain ⟨rounds, rfl⟩ : ∃ k, rounds = k + 1 := ⟨rounds - 1, by omega⟩
      obtain ⟨s₁, hstep, hs₁, hk₁, hsize₁⟩ := stageLoop_word rounds ht hs (by omega)
        (hword w List.mem_cons_self) (by omega)
      obtain ⟨s', hloop, hs', hk', hsize'⟩ := ih hs₁ (by omega) (by omega)
        (fun w hw => hword w (List.mem_cons_of_mem _ hw)) (by omega : stage.length ≤ rounds)
      refine ⟨s', hstep.trans hloop, hs', ?_, hsize'.trans hsize₁⟩
      rw [hk', hk₁, List.length_cons]
      omega

/-- If there is not, the loop goes past the end of `task`. -/
theorem stageLoop_error {b rounds : Nat} (ht : Holds t tokens)
    (hs : Reached b tokens (stage ++ rest) s) (hk : s.task.size < s.k + stage.length)
    (hsize : s.k ≤ s.task.size) (hb : s.task.size ≤ b) (hword : ∀ w ∈ stage, w ≠ PIPE)
    (hrounds : stage.length ≤ rounds) :
    stageLoop t tokens.length rounds s = .error .outOfBounds := by
  induction stage generalizing s rounds with
  | nil =>
      rw [List.length_nil] at hk
      omega
  | cons w stage ih =>
      rw [List.length_cons] at hk hrounds
      obtain ⟨rounds, rfl⟩ : ∃ k, rounds = k + 1 := ⟨rounds - 1, by omega⟩
      by_cases hlt : s.k < s.task.size
      · obtain ⟨s₁, hstep, hs₁, hk₁, hsize₁⟩ := stageLoop_word rounds ht hs hlt
          (hword w List.mem_cons_self) (by omega)
        rw [hstep]
        exact ih hs₁ (by omega) (by omega) (by omega)
          (fun w hw => hword w (List.mem_cons_of_mem _ hw)) (by omega)
      · obtain ⟨hi, hget, -⟩ := hs.head
        have hw : some w ≠ some PIPE := fun heq =>
          hword w List.mem_cons_self (Option.some.inj heq)
        rw [stageLoop, if_pos hi, get_ok (Nat.lt_trans hi ht.1), ok_bind, ht.2 s.i hi, hget,
          if_neg hw, set_error (by omega)]
        rfl

/-- A task with its null pointer. -/
theorem pipeStage_ok (ht : Holds t tokens) (hs : Reached 255 tokens (stage ++ rest) s)
    (hlen : stage.length ≤ 255) (hword : ∀ w ∈ stage, w ≠ PIPE)
    (hend : ∀ w ∈ rest.head?, w = PIPE) :
    ∃ s', pipeStage t tokens.length s = .ok s' ∧ Reached 255 tokens (rest.drop 1) s' ∧
      s'.task.size = 256 := by
  have hshort : stage.length ≤ tokens.length := by
    have := congrArg List.length hs.rest
    rw [List.length_append, List.length_drop] at this
    omega
  have hstart : Reached 255 tokens (stage ++ rest) { s with task := .new 256, k := 0 } :=
    ⟨hs.rest, hs.input, hs.output⟩
  obtain ⟨s₁, hloop, hs₁, hk₁, hsize₁⟩ := stageLoop_ok ht hstart
    (by dsimp only; omega) (by show 255 ≤ 256; omega) hword hend hshort
  have htask : s₁.task.size = 256 := hsize₁
  have hk : s₁.k ≤ 255 := by
    rw [hk₁]
    dsimp only
    omega
  unfold pipeStage
  rw [hloop, ok_bind, set_ok (by omega), ok_bind]
  refine ⟨_, rfl, ⟨?_, hs₁.input, hs₁.output⟩, htask⟩
  rw [hs₁.rest, List.drop_drop]

/-- A stage with more than 255 words is copied behind the end of `task`. -/
theorem pipeStage_error (ht : Holds t tokens) (hs : Reached 255 tokens (stage ++ rest) s)
    (hlen : 255 < stage.length) (hword : ∀ w ∈ stage, w ≠ PIPE)
    (hend : ∀ w ∈ rest.head?, w = PIPE) :
    pipeStage t tokens.length s = .error .outOfBounds := by
  have hshort : stage.length ≤ tokens.length := by
    have := congrArg List.length hs.rest
    rw [List.length_append, List.length_drop] at this
    omega
  have hstart : Reached 256 tokens (stage ++ rest) { s with task := .new 256, k := 0 } :=
    ⟨hs.rest, Nat.lt_succ_of_lt hs.input, Nat.lt_succ_of_lt hs.output⟩
  have hsize : ({ s with task := .new 256, k := 0 } : Stage).task.size = 256 := rfl
  unfold pipeStage
  by_cases hfull : stage.length = 256
  · obtain ⟨s₁, hloop, -, hk₁, hsize₁⟩ := stageLoop_ok ht hstart
      (by dsimp only; omega) (by rw [hsize]) hword hend hshort
    have htask : s₁.task.size ≤ s₁.k := by
      rw [hsize₁, hk₁, hsize]
      dsimp only
      omega
    rw [hloop, ok_bind, set_error htask]
    rfl
  · rw [stageLoop_error ht hstart (by rw [hsize]; dsimp only; omega) (Nat.zero_le _)
      (by rw [hsize]) hword hshort]
    rfl

theorem cutOff_ok {index : Nat} {task : Arr} (hsize : task.size = 256) (hindex : index < 255) :
    ∃ task' file, cutOff task index = .ok (task', file) ∧ task'.size = 256 := by
  unfold cutOff
  by_cases hzero : index = 0
  · rw [if_neg (by omega)]
    exact ⟨task, none, rfl, hsize⟩
  · have hnext : ((index : Int) + 1) = ((index + 1 : Nat) : Int) := rfl
    have hget : index + 1 < 256 := by omega
    rw [if_pos hzero, set_ok (by omega), ok_bind, hnext, get_ok (by rw [← hsize] at hget; exact hget)]
    exact ⟨_, _, rfl, hsize⟩

/-- Which operator counts depends on the task. -/
theorem redirectTask_eq (numTasks taskNumber : Nat) (s : Stage) :
    redirectTask numTasks taskNumber s = cutOff s.task (if taskNumber = 0 then s.inputIndex
      else if taskNumber = numTasks - 1 then s.outputIndex else 0) := by
  unfold redirectTask
  by_cases hfirst : taskNumber = 0
  · rw [if_pos hfirst, if_pos hfirst]
  · rw [if_neg hfirst, if_neg hfirst]
    by_cases hlast : taskNumber = numTasks - 1
    · rw [if_pos hlast, if_pos hlast]
    · rw [if_neg hlast, if_neg hlast]
      rfl

theorem cutIndex_lt {input output b : Nat} (hinput : input < b) (houtput : output < b)
    (numTasks taskNumber : Nat) :
    (if taskNumber = 0 then input else if taskNumber = numTasks - 1 then output else 0) < b := by
  split
  · exact hinput
  · split
    · exact houtput
    · omega

theorem childArgs_eq (pathResolve : Option Word → Option Word) {numTasks taskNumber : Nat}
    {cut : Arr} {file : Option Word} (h : redirectTask numTasks taskNumber s = .ok (cut, file))
    (hpos : 0 < cut.size) : childArgs pathResolve numTasks taskNumber s =
      .ok { cut with slots := Function.update cut.slots 0 (pathResolve (cut.slots 0)) } := by
  have hget : cut.get 0 = .ok (cut.slots 0) := get_ok hpos
  unfold childArgs
  rw [h, ok_bind]
  dsimp only
  rw [hget, ok_bind]
  exact set_ok hpos _

/-- The child gets by with `task`. -/
theorem childArgs_ok (pathResolve : Option Word → Option Word)
    (hs : Reached 255 tokens rest s) (hsize : s.task.size = 256) (numTasks taskNumber : Nat) :
    ∃ task, childArgs pathResolve numTasks taskNumber s = .ok task := by
  have hindex : (if taskNumber = 0 then s.inputIndex
      else if taskNumber = numTasks - 1 then s.outputIndex else 0) < 255 :=
    cutIndex_lt hs.input hs.output numTasks taskNumber
  obtain ⟨task, file, hcut, htask⟩ := cutOff_ok hsize hindex
  exact ⟨_, childArgs_eq pathResolve ((redirectTask_eq numTasks taskNumber s).trans hcut)
    (by omega)⟩

/-- The tasks that are left: the first one ends at the first `|`. -/
theorem tasks_cases (rest : List Word) :
    (tasks rest = [rest] ∧ ∀ w ∈ rest, w ≠ PIPE) ∨
      ∃ stage later, rest = stage ++ PIPE :: later ∧ (∀ w ∈ stage, w ≠ PIPE) ∧
        tasks rest = stage :: tasks later := by
  unfold tasks
  by_cases hpipe : PIPE ∈ rest
  · right
    obtain ⟨stage, later, rfl, hnot⟩ := List.eq_append_cons_of_mem hpipe
    have hword : ∀ w ∈ stage, w ≠ PIPE := fun w hw heq => hnot (heq ▸ hw)
    refine ⟨stage, later, rfl, hword, ?_⟩
    exact List.splitOnP_append_cons_of_forall_mem (fun w hw => by simpa using hword w hw) PIPE
      (by simp) later
  · left
    have hword : ∀ w ∈ rest, w ≠ PIPE := fun w hw heq => hpipe (heq ▸ hw)
    exact ⟨List.splitOnP_eq_singleton fun w hw => by simpa using hword w hw, hword⟩

/-- The loop over the tasks: the induction is on the tasks that are left. -/
theorem pipeLoop_iff (pathResolve : Option Word → Option Word) {n rounds : Nat}
    (ht : Holds t tokens) (hs : Reached 255 tokens rest s) (hrounds : (tasks rest).length = rounds)
    (taskNumber : Nat) :
    pipeLoop pathResolve t tokens.length n rounds taskNumber s = .ok () ↔
      ∀ task ∈ tasks rest, task.length ≤ 255 := by
  induction rounds generalizing rest s taskNumber with
  | zero =>
      have hnil := List.length_eq_zero_iff.mp hrounds
      exact absurd hnil (List.splitOnP_ne_nil _ _)
  | succ rounds ih =>
      unfold pipeLoop
      rcases tasks_cases rest with ⟨htasks, hword⟩ | ⟨stage, later, rfl, hword, htasks⟩
      · rw [htasks] at hrounds ⊢
        obtain rfl : rounds = 0 := by simpa using hrounds.symm
        have hs' : Reached 255 tokens (rest ++ []) s := by rwa [List.append_nil]
        rw [List.forall_mem_singleton]
        by_cases hlen : rest.length ≤ 255
        · obtain ⟨s₁, hstage, hs₁, hsize⟩ := pipeStage_ok ht hs' hlen hword (by simp)
          obtain ⟨task, hchild⟩ := childArgs_ok pathResolve hs₁ hsize n taskNumber
          rw [hstage, ok_bind, hchild, ok_bind]
          exact ⟨fun _ => hlen, fun _ => rfl⟩
        · rw [pipeStage_error ht hs' (by omega) hword (by simp)]
          exact ⟨fun h => absurd h nofun, fun h => absurd h hlen⟩
      · rw [htasks] at hrounds ⊢
        rw [List.forall_mem_cons]
        have hend : ∀ w ∈ (PIPE :: later).head?, w = PIPE := fun w hw => by simpa using hw.symm
        by_cases hlen : stage.length ≤ 255
        · obtain ⟨s₁, hstage, hs₁, hsize⟩ := pipeStage_ok ht hs hlen hword hend
          obtain ⟨task, hchild⟩ := childArgs_ok pathResolve hs₁ hsize n taskNumber
          rw [hstage, ok_bind, hchild, ok_bind,
            ih hs₁ (by simpa using hrounds) (taskNumber + 1)]
          exact ⟨fun h => ⟨hlen, h⟩, fun h => h.2⟩
        · rw [pipeStage_error ht hs (by omega) hword hend]
          exact ⟨fun h => absurd h nofun, fun h => absurd h.1 hlen⟩

/-- The number of tasks that `main` counts is the number of tasks. -/
theorem length_tasks (tokens : List Word) : (tasks tokens).length = numTasks tokens := by
  obtain ⟨n, hn⟩ : ∃ n, tokens.length < n := ⟨_, Nat.lt_succ_self _⟩
  induction n generalizing tokens with
  | zero => omega
  | succ n ih =>
      unfold numTasks
      rcases tasks_cases tokens with ⟨htasks, hword⟩ | ⟨stage, later, rfl, hword, htasks⟩
      · rw [htasks, List.countP_eq_zero.mpr fun w hw => by simpa using hword w hw]
        rfl
      · rw [List.length_append, List.length_cons] at hn
        rw [htasks, List.length_cons, ih later (by omega), List.countP_append,
          List.countP_eq_zero.mpr fun w hw => by simpa using hword w hw,
          List.countP_cons_of_pos (by simp)]
        unfold numTasks
        omega

/-- The vectors of a pipeline. -/
theorem pipeExecuter2_iff (pathResolve : Option Word → Option Word) (tokens : List Word) :
    pipeExecuter2 pathResolve tokens (numTasks tokens) = .ok () ↔ PipelineFits tokens := by
  have hsize : (Arr.new 1024).size = 1024 := rfl
  unfold pipeExecuter2 PipelineFits
  by_cases hlong : tokens.length ≤ 1024
  · obtain ⟨t, hfill, htsize, hslots⟩ := @fill_ok (.new 1024) 0 tokens tokens.length
      (by rw [hsize]; omega)
    rw [hfill, ok_bind]
    by_cases hfull : tokens.length = 1024
    · rw [set_error (by rw [htsize, hsize, hfull])]
      exact ⟨fun h => absurd h nofun, fun h => absurd h.1 (by omega)⟩
    · have hroom : tokens.length < t.size := by
        rw [htsize, hsize]
        omega
      have hholds : Holds { t with slots := Function.update t.slots tokens.length none } tokens := by
        refine ⟨hroom, fun i hi => ?_⟩
        dsimp only
        rw [Function.update_of_ne (by omega), hslots i, if_pos (by omega)]
      have hstart : Reached 255 tokens tokens ⟨.new 256, 0, 0, 0, 0⟩ :=
        ⟨rfl, by decide, by decide⟩
      rw [set_ok hroom, ok_bind, pipeLoop_iff pathResolve hholds hstart (length_tasks tokens) 0]
      exact ⟨fun h => ⟨by omega, h⟩, fun h => h.2⟩
  · rw [fill_error (Nat.zero_le _) (by rw [hsize]; omega)]
    exact ⟨fun h => absurd h nofun, fun h => absurd h.1 (by omega)⟩

end Pipeline

/-! ### Lines -/

theorem numTasks_gt_one {tokens : List Word} : numTasks tokens > 1 ↔ PIPE ∈ tokens := by
  unfold numTasks
  have hpos : 0 < tokens.countP (fun w => decide (w = PIPE)) ↔ PIPE ∈ tokens := by
    rw [List.countP_pos_iff]
    simp
  rw [← hpos]
  omega

/-- **Which lines the shell copes with.** For every line that `fgets` delivers: `tokenize` does
not abort, and neither the shell nor its children index outside of an array up to their
`execv`, if and only if the line fits. What a child frees when its `execv` fails is not part
of this. -/
theorem line_safe_iff (pathResolve : Option Word → Option Word) (line : List UInt8)
    (hlen : line.length < nMax) (hnull : ∀ c ∈ line, c ≠ 0) :
    processLine pathResolve line = .ok () ↔ Fits line := by
  obtain ⟨habort, hwords⟩ := tokenize_eq hlen hnull
  unfold Fits processLine
  by_cases htoo : TooLong line
  · rw [habort htoo]
    exact ⟨fun h => absurd h nofun, fun h => absurd htoo h.1⟩
  · rw [hwords htoo, ok_bind]
    unfold WordsFit
    cases hlookup : lookup (lineWords line)[0]? with
    | some i => exact ⟨fun _ => ⟨htoo, fun h => absurd h nofun⟩, fun _ => rfl⟩
    | none =>
        dsimp only
        by_cases hpipe : PIPE ∈ lineWords line
        · rw [if_pos (numTasks_gt_one.mpr hpipe), pipeExecuter2_iff]
          exact ⟨fun h => ⟨htoo, fun _ => by rwa [if_pos hpipe]⟩, fun h => by
            have := h.2 rfl
            rwa [if_pos hpipe] at this⟩
        · rw [if_neg fun h => hpipe (numTasks_gt_one.mp h)]
          have hsingle := singleArgs_iff (lineWords line)
          constructor
          · intro h
            refine ⟨htoo, fun _ => ?_⟩
            rw [if_neg hpipe]
            obtain ⟨t, ht, -⟩ := bind_eq_ok h
            exact hsingle.mp ⟨t, ht⟩
          · intro h
            have hfits := h.2 rfl
            rw [if_neg hpipe] at hfits
            obtain ⟨t, ht⟩ := hsingle.mpr hfits
            rw [ht, ok_bind]

/-- `ls | wc` fits. -/
theorem line_safe_pipeline :
    processLine (fun w => w) [108, 115, 32, 124, 32, 119, 99, 10] = .ok () := by
  refine (line_safe_iff (fun w => w) _ (by decide) (by simp)).mpr
    ⟨fun h => absurd h.1 (by decide), fun _ => ?_⟩
  have hwords : lineWords [108, 115, 32, 124, 32, 119, 99, 10] =
      [[108, 115], PIPE, [119, 99]] := by decide
  rw [hwords, if_pos (by decide)]
  exact ⟨by decide, by decide⟩

/-- On a lone `>` the null pointer is written to the index -1. -/
theorem not_safe_lone_operator : ([62, 10] : List UInt8).length < nMax ∧
    (∀ c ∈ ([62, 10] : List UInt8), c ≠ 0) ∧
    processLine (fun w => w) [62, 10] = .error .outOfBounds :=
  ⟨by decide, by simp, by decide⟩

end OsTools.Shell

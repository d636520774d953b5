import OsTools.Shell.Bounds
/-!
# OsTools.Shell.Redirection

What `redirect` of `hw-shell/shell.c` makes of the tokens of a command: which are left, and
which files are put on standard input and output.

`redirect` takes every token that begins with `<` or `>` for an operator, and takes two tokens
off the length for each, also for one without a file name. `pipe_executer2` tests for tokens
that are equal to `<` or `>`; by that test the tokens are read here (`arguments`,
`redirections`). The two readings come to the same exactly for the tokens of `redirect_iff`.

## Proof shape

What is left of the tokens is given by a function of a test for operators, and the two tests
give two readings. The loop is proved to compute the reading by first characters
(`redirect_spec`), by induction on the tokens that are left, and `readings_agree` compares
the two. In the other direction a token on which the tests differ, or an operator at the
end, changes the number of arguments.
-/

namespace OsTools.Shell

/-! ### Reading a command -/

section Reading

variable (op : Word → Bool)

/-- From left to right: an operator takes the token behind it for its file name. -/
def argumentsBy : List Word → List Word
  | [] => []
  | [w] => if op w then [] else [w]
  | w :: x :: rest => if op w then argumentsBy rest else w :: argumentsBy (x :: rest)

/-- The operators with their file names. -/
def redirectionsBy : List Word → List (Word × Word)
  | [] => []
  | [_] => []
  | w :: x :: rest =>
      if op w then (w, x) :: redirectionsBy rest else redirectionsBy (x :: rest)

/-- The last token is an operator without a file name. -/
def lacksFileBy : List Word → Bool
  | [] => false
  | [w] => op w
  | w :: x :: rest => if op w then lacksFileBy rest else lacksFileBy (x :: rest)

end Reading

/-- A redirection operator, by the test of `pipe_executer2`. -/
def isRedirection (w : Word) : Bool := w = LESS ∨ w = GREATER

/-- The descriptor that an operator redirects. -/
def descriptor (w : Word) : Nat := if first w = 62 then 1 else 0

/-- The tokens that are neither operators nor the file name of one. -/
def arguments (tokens : List Word) : List Word := argumentsBy isRedirection tokens

/-- The files of a command, each with the descriptor that it is for. -/
def redirections (tokens : List Word) : List (Nat × Word) :=
  (redirectionsBy isRedirection tokens).map fun x => (descriptor x.1, x.2)

def lacksFile (tokens : List Word) : Bool := lacksFileBy isRedirection tokens

/-- `open` and `dup2` for one file after the other. `opens k` says whether the call `k` of `open`
succeeds; a null pointer cannot be opened. -/
def attach (opens : Nat → Bool) : Nat → List (Nat × Option Word) → (Nat → Option Word) →
    Nat → Option Word
  | _, [], fds => fds
  | k, (fd, file) :: rest, fds =>
      attach opens (k + 1) rest
        (if file.isSome ∧ opens k = true then Function.update fds fd file else fds)

/-- `redirect` returns a length, the tokens up to there are the arguments, and the file of the
last operator for a descriptor is the one behind it if it can be opened. -/
structure Redirected (tokens : List Word) : Prop where
  nonneg : 0 ≤ (redirect tokens).len
  arguments : (redirect tokens).tokens.take (redirect tokens).len.toNat = arguments tokens
  attached : ∀ opens fds fd file before later,
    redirections tokens = before ++ (fd, file) :: later → (∀ x ∈ later, x.1 ≠ fd) →
    opens before.length = true → attach opens 0 (redirect tokens).opened fds fd = some file

section Reading

variable {op : Word → Bool} {w : Word} {l tokens : List Word}

theorem not_op_of_mem_argumentsBy (h : w ∈ argumentsBy op l) : op w = false := by
  induction l using argumentsBy.induct op with
  | case1 => cases h
  | case2 x hx =>
      rw [argumentsBy, if_pos hx] at h
      cases h
  | case3 x hx =>
      rw [argumentsBy, if_neg hx, List.mem_singleton] at h
      rw [h]
      simpa using hx
  | case4 x y rest hx ih =>
      rw [argumentsBy, if_pos hx] at h
      exact ih h
  | case5 x y rest hx ih =>
      rw [argumentsBy, if_neg hx] at h
      rcases List.mem_cons.mp h with rfl | h
      · simpa using hx
      · exact ih h

/-- The tokens that are neither operators nor directly behind one. -/
def ordinary : Bool → List Word → List Word
  | _, [] => []
  | behind, w :: rest =>
      if isRedirection w then ordinary true rest
      else if behind then ordinary false rest
      else w :: ordinary false rest

/-- If no operator is directly behind another one, these are the arguments. -/
theorem arguments_eq_ordinary
    (h : l.IsChain fun w x => isRedirection w = true → isRedirection x = false) :
    arguments l = ordinary false l := by
  unfold arguments
  induction l using argumentsBy.induct isRedirection with
  | case1 => rfl
  | case2 w hw => simp [argumentsBy, ordinary, hw]
  | case3 w hw => simp [argumentsBy, ordinary, hw]
  | case4 w x rest hw ih =>
      obtain ⟨hwx, hrest⟩ := List.isChain_cons_cons.mp h
      have hx := hwx hw
      rw [argumentsBy, if_pos hw, ih hrest.of_cons]
      simp [ordinary, hw, hx]
  | case5 w x rest hw ih =>
      rw [argumentsBy, if_neg hw, ih (List.isChain_cons_cons.mp h).2]
      simp [ordinary, hw]

theorem isOperator_of_isRedirection (h : isRedirection w = true) : isOperator w = true := by
  unfold isRedirection at h
  rw [decide_eq_true_iff] at h
  rcases h with rfl | rfl <;> decide

/-- The first characters tell the operators if no argument begins with one of theirs. -/
theorem readings_agree (h : ∀ w ∈ arguments l, isOperator w = false) :
    argumentsBy isOperator l = arguments l ∧
      redirectionsBy isOperator l = redirectionsBy isRedirection l ∧
      lacksFileBy isOperator l = lacksFile l := by
  unfold arguments lacksFile at *
  induction l using argumentsBy.induct isRedirection with
  | case1 => exact ⟨rfl, rfl, rfl⟩
  | case2 w hw =>
      have hop := isOperator_of_isRedirection hw
      simp [argumentsBy, redirectionsBy, lacksFileBy, hw, hop]
  | case3 w hw =>
      rw [argumentsBy, if_neg hw] at h
      have hop := h w List.mem_cons_self
      simp [argumentsBy, redirectionsBy, lacksFileBy, hw, hop]
  | case4 w x rest hw ih =>
      have hop := isOperator_of_isRedirection hw
      rw [argumentsBy, if_pos hw] at h
      obtain ⟨hargs, hfiles, hlacks⟩ := ih h
      simp [argumentsBy, redirectionsBy, lacksFileBy, hw, hop, hargs, hfiles, hlacks]
  | case5 w x rest hw ih =>
      rw [argumentsBy, if_neg hw] at h
      obtain ⟨hop, h⟩ := List.forall_mem_cons.mp h
      obtain ⟨hargs, hfiles, hlacks⟩ := ih h
      simp [argumentsBy, redirectionsBy, lacksFileBy, hw, hop, hargs, hfiles, hlacks]

theorem length_argumentsBy (l : List Word) : (argumentsBy isOperator l).length = argCount l := by
  induction l using argumentsBy.induct isOperator with
  | case1 => rfl
  | case2 w hw => simp [argumentsBy, argCount, hw]
  | case3 w hw => simp [argumentsBy, argCount, hw]
  | case4 w x rest hw ih => simp [argumentsBy, argCount, hw, ih]
  | case5 w x rest hw ih => simp [argumentsBy, argCount, hw, ih]

theorem lacksFileBy_eq (l : List Word) : lacksFileBy isOperator l = dangling l := by
  induction l using argumentsBy.induct isOperator with
  | case1 => rfl
  | case2 w hw => rfl
  | case3 w hw => rfl
  | case4 w x rest hw ih => simp [lacksFileBy, dangling, hw, ih]
  | case5 w x rest hw ih => simp [lacksFileBy, dangling, hw, ih]

end Reading

/-! ### The loop of `redirect` -/

section Loop

variable {tokens l : List Word} {r r' : Redirect} {i : Nat}

/-- What the loop has done by its end, from the index `i` on, where the tokens `l` were left. -/
structure Done (r r' : Redirect) (i : Nat) (l : List Word) : Prop where
  before : ∀ j, j < i → r'.tokens[j]? = r.tokens[j]?
  kept : ∀ j, j < (argumentsBy isOperator l).length →
    r'.tokens[i + j]? = (argumentsBy isOperator l)[j]?
  opened : lacksFileBy isOperator l = false → r'.opened = r.opened ++
    (redirectionsBy isOperator l).map fun x => (descriptor x.1, some x.2)

theorem takeOut_tokens_before {fd j : Nat} (h : i + (r.len - 2 - i).toNat + 2 ≤ r.tokens.length)
    (hj : j < i) : (takeOut r i fd).tokens[j]? = r.tokens[j]? := by
  show (shift (r.len - 2 - i).toNat i r.tokens)[j]? = _
  rw [getElem?_shift h, if_neg (by omega)]

/-- The tokens that are left are within the array. -/
theorem Left.bound (h : Left r i l) (hne : l ≠ []) : i + l.length ≤ r.tokens.length := by
  have hpos := List.length_pos_iff.mpr hne
  have hlast := h.tokens (l.length - 1) (by omega)
  by_contra hlt
  rw [List.getElem?_eq_none (by omega), List.getElem?_eq_getElem (by omega)] at hlast
  cases hlast

/-- The loop on the tokens `l` that are left at `i`. The induction is along `argumentsBy`,
which takes the tokens as the loop does: an operator with its file name at a time, or a
word. -/
theorem redirectLoop_spec {rounds : Nat} (h : Left r i l) (hrounds : l.length ≤ rounds) :
    Done r (redirectLoop rounds r i) i l := by
  induction l using argumentsBy.induct isOperator generalizing r i rounds with
  | case1 =>
      have hlen := h.len
      rw [redirectLoop_done (by rw [hlen]; simp)]
      exact ⟨fun _ _ => rfl, fun j hj => absurd hj (Nat.not_lt_zero j), fun _ => by
        simp [redirectionsBy]⟩
  | case2 w hw =>
      -- An operator at the end: only the length changes.
      obtain ⟨rounds, rfl⟩ : ∃ k, rounds = k + 1 := ⟨rounds - 1, by simp at hrounds; omega⟩
      have hlen := h.len
      rw [List.length_singleton] at hlen
      have hout : (takeOut r i (if first w = 62 then 1 else 0)).len = i - 1 := by
        show r.len - 2 = _
        omega
      have hshift : (r.len - 2 - i).toNat = 0 := by omega
      rw [redirectLoop_takeOut h hw, redirectLoop_done (by omega)]
      refine ⟨fun j _ => ?_, fun j hj => ?_, fun hlacks => ?_⟩
      · show (shift (r.len - 2 - i).toNat i r.tokens)[j]? = _
        rw [hshift]
        rfl
      · rw [argumentsBy, if_pos hw] at hj
        exact absurd hj (Nat.not_lt_zero j)
      · rw [lacksFileBy, hw] at hlacks
        cases hlacks
  | case3 w hw =>
      -- A word at the end stays.
      obtain ⟨rounds, rfl⟩ : ∃ k, rounds = k + 1 := ⟨rounds - 1, by simp at hrounds; omega⟩
      have hlen := h.len
      rw [List.length_singleton] at hlen
      rw [redirectLoop_word h hw, redirectLoop_done (by push_cast; omega)]
      refine ⟨fun _ _ => rfl, fun j hj => ?_, fun _ => by simp [redirectionsBy]⟩
      rw [argumentsBy, if_neg hw] at hj ⊢
      exact h.tokens j hj
  | case4 w x rest hw ih =>
      -- The operator and its file name are taken out, and the tokens behind move up to `i`.
      obtain ⟨rounds, rfl⟩ : ∃ k, rounds = k + 1 := ⟨rounds - 1, by simp at hrounds; omega⟩
      simp only [List.length_cons] at hrounds
      have hlen := h.len
      have hbound := h.bound (List.cons_ne_nil w (x :: rest))
      simp only [List.length_cons] at hlen hbound
      have hfile : r.tokens[i + 1]? = some x := h.tokens 1 (by simp)
      have hdone := ih (h.takeOut (descriptor w)) (by omega : rest.length ≤ rounds)
      have hopened : (takeOut r i (descriptor w)).opened =
          r.opened ++ [(descriptor w, some x)] := by
        show r.opened ++ [(descriptor w, r.tokens[i + 1]?)] = _
        rw [hfile]
      rw [redirectLoop_takeOut h hw]
      refine ⟨fun j hj => ?_, fun j hj => ?_, fun hlacks => ?_⟩
      · exact (hdone.before j hj).trans (takeOut_tokens_before (by omega) hj)
      · rw [argumentsBy, if_pos hw] at hj ⊢
        exact hdone.kept j hj
      · rw [lacksFileBy, if_pos hw] at hlacks
        rw [redirectionsBy, if_pos hw, List.map_cons]
        refine (hdone.opened hlacks).trans ?_
        rw [hopened, List.append_assoc]
        rfl
  | case5 w x rest hw ih =>
      -- A word stays at `i`, and the rounds go on behind it.
      obtain ⟨rounds, rfl⟩ : ∃ k, rounds = k + 1 := ⟨rounds - 1, by simp at hrounds; omega⟩
      simp only [List.length_cons] at hrounds
      have hdone := ih h.next (by simp only [List.length_cons]; omega : _ ≤ rounds)
      rw [redirectLoop_word h hw]
      refine ⟨fun j hj => hdone.before j (by omega), fun j hj => ?_, fun hlacks => ?_⟩
      · rw [argumentsBy, if_neg hw] at hj ⊢
        cases j with
        | zero =>
            have hbefore := hdone.before i (Nat.lt_succ_self i)
            exact hbefore.trans (h.tokens 0 (by simp))
        | succ j =>
            have hkept := hdone.kept j (by simpa using hj)
            rw [Nat.add_right_comm, Nat.add_assoc] at hkept
            exact hkept
      · rw [lacksFileBy, if_neg hw] at hlacks
        rw [redirectionsBy, if_neg hw]
        exact hdone.opened hlacks

/-- What `redirect` returns, by its own reading of the tokens. -/
theorem redirect_spec (tokens : List Word) :
    (redirect tokens).len = (argumentsBy isOperator tokens).length -
        (if lacksFileBy isOperator tokens then 1 else 0) ∧
      (∀ n, n ≤ (argumentsBy isOperator tokens).length →
        (redirect tokens).tokens.take n = (argumentsBy isOperator tokens).take n) ∧
      (lacksFileBy isOperator tokens = false → (redirect tokens).opened =
        (redirectionsBy isOperator tokens).map fun x => (descriptor x.1, some x.2)) := by
  have hstart : Left ⟨tokens, tokens.length, []⟩ 0 tokens :=
    ⟨by simp, fun j _ => by rw [Nat.zero_add]⟩
  have hdone := redirectLoop_spec hstart (Nat.le_refl _)
  refine ⟨?_, fun n hn => ?_, hdone.opened⟩
  · rw [redirect_len, length_argumentsBy, lacksFileBy_eq]
  · refine List.ext_getElem? fun j => ?_
    rw [List.getElem?_take, List.getElem?_take]
    by_cases hj : j < n
    · have hkept := hdone.kept j (by omega)
      rw [Nat.zero_add] at hkept
      rw [if_pos hj, if_pos hj]
      exact hkept
    · rw [if_neg hj, if_neg hj]

end Loop

/-! ### Files -/

section Files

variable {opens : Nat → Bool} {fds : Nat → Option Word} {fd k : Nat}

theorem attach_other {l : List (Nat × Option Word)} (h : ∀ x ∈ l, x.1 ≠ fd) :
    attach opens k l fds fd = fds fd := by
  induction l generalizing k fds with
  | nil => rfl
  | cons x l ih =>
      obtain ⟨fd', file⟩ := x
      obtain ⟨hx, hl⟩ := List.forall_mem_cons.mp h
      rw [attach, ih hl]
      split
      · exact Function.update_of_ne (Ne.symm hx) _ _
      · rfl

theorem attach_append (l l' : List (Nat × Option Word)) :
    attach opens k (l ++ l') fds = attach opens (k + l.length) l' (attach opens k l fds) := by
  induction l generalizing k fds with
  | nil => rfl
  | cons x l ih =>
      obtain ⟨fd', file⟩ := x
      rw [List.cons_append, attach, attach, ih, List.length_cons, Nat.add_right_comm k 1,
        Nat.add_assoc]

/-- The last file for a descriptor is the one that it ends up on. -/
theorem attach_last {before later : List (Nat × Option Word)} {file : Word}
    (hlater : ∀ x ∈ later, x.1 ≠ fd) (hopens : opens (k + before.length) = true) :
    attach opens k (before ++ (fd, some file) :: later) fds fd = some file := by
  rw [attach_append, attach, attach_other hlater, if_pos ⟨rfl, hopens⟩, Function.update_self]

end Files

/-- **Which commands `redirect` reads correctly**: exactly those in which no argument begins
with `<` or `>` and no operator is without a file name at the end. What it makes of any
command is `redirectLoop_spec`; the two ways to read a command, by first characters and by
whole words, are compared token by token. -/
theorem redirect_iff (tokens : List Word) : Redirected tokens ↔
    (∀ w ∈ arguments tokens, isOperator w = false) ∧ lacksFile tokens = false := by
  obtain ⟨hlen, htake, hopened⟩ := redirect_spec tokens
  constructor
  · intro h
    have hnonneg := h.nonneg
    have hargs := h.arguments
    have hshort : (redirect tokens).len.toNat ≤ (argumentsBy isOperator tokens).length := by
      split at hlen <;> omega
    rw [htake _ hshort] at hargs
    have hwords : ∀ w ∈ arguments tokens, isOperator w = false := by
      intro w hw
      rw [← hargs] at hw
      exact not_op_of_mem_argumentsBy (List.mem_of_mem_take hw)
    obtain ⟨hagree, -, hlacks⟩ := readings_agree hwords
    refine ⟨hwords, ?_⟩
    -- A missing file name would take an argument away.
    have hcount := congrArg List.length hargs
    rw [List.length_take, hagree] at hcount
    rw [hagree, hlacks] at hlen
    by_contra hmissing
    rw [Bool.not_eq_false] at hmissing
    rw [hmissing, if_pos rfl] at hlen
    omega
  · rintro ⟨hwords, hfile⟩
    obtain ⟨hagree, hfiles, hlacks⟩ := readings_agree hwords
    rw [hlacks, hfile] at hlen hopened
    rw [hagree] at hlen htake
    have hlen' : (redirect tokens).len = (arguments tokens).length := by simpa using hlen
    refine ⟨by omega, ?_, fun opens fds fd file before later hsplit hlater hopens => ?_⟩
    · rw [hlen', Int.toNat_natCast, htake _ (Nat.le_refl _), List.take_length]
    · have hcalls : (redirect tokens).opened =
          (redirections tokens).map fun x => (x.1, some x.2) := by
        rw [hopened rfl, hfiles]
        unfold redirections
        rw [List.map_map]
        rfl
      rw [hcalls, hsplit, List.map_append, List.map_cons]
      refine attach_last (fun x hx => ?_) (by simpa using hopens)
      obtain ⟨y, hy, rfl⟩ := List.mem_map.mp hx
      exact hlater y hy

/-- `echo hi >` loses the argument `hi`. -/
theorem redirect_drops_argument : ¬ Redirected [[101, 99, 104, 111], [104, 105], GREATER] := by
  intro h
  exact absurd h.arguments (by decide)

end OsTools.Shell

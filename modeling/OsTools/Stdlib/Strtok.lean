import Mathlib.Data.List.Forall2
import OsTools.Kernel.Bitmap
import OsTools.Lib.CString
import OsTools.Lib.Except
import OsTools.Lib.Runs
/-!
# OsTools.Stdlib.Strtok

The tokenizer `strtok_r` of `lib/string.c`. The object is the string with its null, and a pointer
into it is an index: an access outside of it is a fault.

`strchr` finds the null in every string of delimiters, so that both loops stop at the end of the
string. A call goes over one run of other characters (`strtokR_run`), and the sequence of calls
over all of them (`strtokR_tokens`).

## Proof shape

What is left of the string at any time is a suffix of it, as the object holds it still: a
call changes only the delimiter behind its token, and the next call starts behind that. So
`strtokCalls_spec` is stated for a suffix and proved by induction on the calls, and the part
of the object before the suffix is a string in which some delimiters have become null
(`Cut`). The tokens of the suffix are the runs of `OsTools.Lib.Runs`, of which a call takes
the first.
-/

namespace OsTools.Stdlib

open OsTools.CString OsTools.Kernel

/-- The object, and what `save_ptr` points to. -/
structure Tokenizer where
  buf : List UInt8
  savePtr : Option Nat

/-- `*s`. -/
def readChar (buf : List UInt8) (s : Nat) : Except Stop UInt8 :=
  match buf[s]? with
  | none => .error .fault
  | some c => .ok c

/-- `strchr (delimiters, c) != NULL`. -/
def isDelimiter (delimiters : List UInt8) (c : UInt8) : Except Stop Bool :=
  match strchr c delimiters with
  | none => .error .fault
  | some found => .ok found.isSome

/-- The first loop of `strtok_r`: where it ends, and whether there is the null. -/
def skipDelimiters (delimiters buf : List UInt8) : Nat → Nat → Except Stop (Nat × Bool)
  | 0, _ => .error .fault
  | fuel + 1, s => do
      let c ← readChar buf s
      if ← isDelimiter delimiters c then
        if c = 0 then .ok (s, true)
        else skipDelimiters delimiters buf fuel (s + 1)
      else .ok (s, false)

/-- The second loop. -/
def skipToken (delimiters buf : List UInt8) : Nat → Nat → Except Stop Nat
  | 0, _ => .error .fault
  | fuel + 1, s => do
      let c ← readChar buf s
      if ← isDelimiter delimiters c then .ok s
      else skipToken delimiters buf fuel (s + 1)

/-- `strtok_r`. -/
def strtokR (delimiters : List UInt8) (s : Option Nat) (st : Tokenizer) :
    Except Stop (Option Nat × Tokenizer) :=
  match s.or st.savePtr with
  | none => .error .assertion
  | some s => do
      let (s, ended) ← skipDelimiters delimiters st.buf st.buf.length s
      if ended then .ok (none, ⟨st.buf, some s⟩)
      else
        let token := s
        let s ← skipToken delimiters st.buf st.buf.length s
        if (← readChar st.buf s) ≠ 0 then .ok (some token, ⟨st.buf.set s 0, some (s + 1)⟩)
        else .ok (some token, ⟨st.buf, some s⟩)

/-- `n` calls, the first one with `s` and the others with a null pointer. -/
def strtokCalls (delimiters : List UInt8) :
    Nat → Option Nat → Tokenizer → Except Stop (List (Option Nat) × Tokenizer)
  | 0, _, st => .ok ([], st)
  | n + 1, s, st => do
      let (token, st) ← strtokR delimiters s st
      let (tokens, st) ← strtokCalls delimiters n none st
      .ok (token :: tokens, st)

/-- A character that is not a delimiter. -/
def isToken (ds : List UInt8) (c : UInt8) : Bool := c ∉ ds

/-- What `n` calls return for a string, and what they leave in the object: the tokens are the runs
of characters that are not delimiters, each of them a string, and then there are no more. -/
structure Tokenized (ds s : List UInt8) (n : Nat) (tokens : List (Option Nat)) (buf : List UInt8) :
    Prop where
  /-- The `i`-th call returns the start of the `i`-th run, if there is one. -/
  pointers : tokens = (List.range n).map fun i => (runStarts (isToken ds) false 0 s)[i]?
  strings : ((runStarts (isToken ds) false 0 s).take n).map (fun p => chars (buf.drop p)) =
    (runs (isToken ds) s).take n
  ended : ∀ p ∈ (runStarts (isToken ds) false 0 s).take n, 0 ∈ buf.drop p
  /-- Only delimiters have been changed, to null. -/
  changed : List.Forall₂ (fun a b => b = a ∨ (a ∈ ds ∧ b = 0)) (s ++ [0]) buf

/-! ### The loops -/

variable {ds junk s pre d w v u rest : List UInt8} {c : UInt8} {fuel n : Nat}

theorem readChar_append (pre v : List UInt8) (c : UInt8) :
    readChar (pre ++ c :: v) pre.length = .ok c := by
  unfold readChar
  rw [List.getElem?_append_right (Nat.le_refl _), Nat.sub_self]
  rfl

theorem set_append_self (pre v : List UInt8) (c x : UInt8) :
    (pre ++ c :: v).set pre.length x = pre ++ x :: v := by
  rw [List.set_append_right _ _ (Nat.le_refl _), Nat.sub_self]
  rfl

theorem isDelimiter_string (hds : 0 ∉ ds) (c : UInt8) :
    isDelimiter (ds ++ 0 :: junk) c = .ok (decide (c = 0 ∨ c ∈ ds)) := by
  have h := strchr_string (p := junk) hds c
  unfold isDelimiter
  cases hfound : strchr c (ds ++ 0 :: junk) with
  | none =>
      rw [hfound] at h
      cases h
  | some found =>
      rw [hfound] at h
      exact congrArg Except.ok (Option.some.inj h)

/-- The first loop goes over delimiters, to the null or another character. -/
theorem skipDelimiters_spec (hds : 0 ∉ ds) (hd : ∀ x ∈ d, x ≠ 0 ∧ x ∈ ds)
    (hc : c = 0 ∨ c ∉ ds) (hfuel : d.length < fuel) :
    skipDelimiters (ds ++ 0 :: junk) (pre ++ (d ++ c :: v)) fuel pre.length =
      .ok (pre.length + d.length, decide (c = 0)) := by
  induction d generalizing pre fuel with
  | nil =>
      obtain ⟨fuel, rfl⟩ := Nat.exists_eq_succ_of_ne_zero (Nat.ne_zero_of_lt hfuel)
      rw [List.nil_append, skipDelimiters, readChar_append, ok_bind, isDelimiter_string hds,
        ok_bind]
      by_cases hzero : c = 0
      · simp [hzero]
      · simp [hzero, hc.resolve_left hzero]
  | cons a d ih =>
      obtain ⟨fuel, rfl⟩ := Nat.exists_eq_succ_of_ne_zero (Nat.ne_zero_of_lt hfuel)
      obtain ⟨ha, hmem⟩ := hd a List.mem_cons_self
      rw [List.cons_append, skipDelimiters, readChar_append, ok_bind, isDelimiter_string hds,
        ok_bind, if_pos (by simp [hmem]), if_neg ha]
      have hnext := @ih (pre ++ [a]) fuel (fun x hx => hd x (List.mem_cons_of_mem _ hx))
        (Nat.lt_of_succ_lt_succ hfuel)
      rw [List.append_assoc, List.singleton_append, List.length_append, List.length_singleton,
        Nat.add_assoc, Nat.add_comm 1] at hnext
      exact hnext

/-- The second loop goes over the other characters, to the null or a delimiter. -/
theorem skipToken_spec (hds : 0 ∉ ds) (hw : ∀ x ∈ w, x ≠ 0 ∧ x ∉ ds) (hc : c = 0 ∨ c ∈ ds)
    (hfuel : w.length < fuel) :
    skipToken (ds ++ 0 :: junk) (pre ++ (w ++ c :: v)) fuel pre.length =
      .ok (pre.length + w.length) := by
  induction w generalizing pre fuel with
  | nil =>
      obtain ⟨fuel, rfl⟩ := Nat.exists_eq_succ_of_ne_zero (Nat.ne_zero_of_lt hfuel)
      rw [List.nil_append, skipToken, readChar_append, ok_bind, isDelimiter_string hds, ok_bind,
        if_pos (decide_eq_true hc)]
      rfl
  | cons a w ih =>
      obtain ⟨fuel, rfl⟩ := Nat.exists_eq_succ_of_ne_zero (Nat.ne_zero_of_lt hfuel)
      obtain ⟨ha, hmem⟩ := hw a List.mem_cons_self
      rw [List.cons_append, skipToken, readChar_append, ok_bind, isDelimiter_string hds, ok_bind,
        if_neg (by simp [ha, hmem])]
      have hnext := @ih (pre ++ [a]) fuel (fun x hx => hw x (List.mem_cons_of_mem _ hx))
        (Nat.lt_of_succ_lt_succ hfuel)
      rw [List.append_assoc, List.singleton_append, List.length_append, List.length_singleton,
        Nat.add_assoc, Nat.add_comm 1] at hnext
      exact hnext

/-! ### One call -/

variable {arg save : Option Nat}

/-- Nothing but delimiters is left. -/
theorem strtokR_none (hds : 0 ∉ ds) (hu : ∀ x ∈ u, x ≠ 0 ∧ x ∈ ds)
    (hstart : arg.or save = some pre.length) :
    strtokR (ds ++ 0 :: junk) arg ⟨pre ++ (u ++ [0]), save⟩ =
      .ok (none, ⟨pre ++ (u ++ [0]), some (pre.length + u.length)⟩) := by
  unfold strtokR
  rw [hstart]
  dsimp only
  rw [skipDelimiters_spec hds hu (Or.inl rfl) (by simp; omega), ok_bind]
  rfl

/-- A call that finds a token, put together from what its loops find. -/
theorem strtokR_some {delimiters buf : List UInt8} {start p q : Nat}
    (hstart : arg.or save = some start)
    (hskip : skipDelimiters delimiters buf buf.length start = .ok (p, false))
    (htoken : skipToken delimiters buf buf.length p = .ok q) (hchar : readChar buf q = .ok c) :
    strtokR delimiters arg ⟨buf, save⟩ =
      .ok (some p, if c = 0 then ⟨buf, some q⟩ else ⟨buf.set q 0, some (q + 1)⟩) := by
  unfold strtokR
  rw [hstart]
  dsimp only
  rw [hskip, ok_bind]
  dsimp only
  rw [if_neg (by decide), htoken, ok_bind, hchar, ok_bind]
  by_cases hc : c = 0
  · rw [if_neg (by simpa using hc), if_pos hc]
  · rw [if_pos hc, if_neg hc]

/-- A run and what follows it: the null, or a delimiter that becomes null. -/
theorem strtokR_run (hds : 0 ∉ ds) (hd : ∀ x ∈ d, x ≠ 0 ∧ x ∈ ds)
    (hw : ∀ x ∈ w, x ≠ 0 ∧ x ∉ ds) (hne : w ≠ []) (hc : c = 0 ∨ c ∈ ds)
    (hstart : arg.or save = some pre.length) :
    strtokR (ds ++ 0 :: junk) arg ⟨pre ++ (d ++ (w ++ c :: v)), save⟩ =
      .ok (some (pre.length + d.length),
        if c = 0 then
          ⟨pre ++ (d ++ (w ++ c :: v)), some (pre.length + d.length + w.length)⟩
        else ⟨pre ++ (d ++ (w ++ 0 :: v)), some (pre.length + d.length + w.length + 1)⟩) := by
  have hskip : skipDelimiters (ds ++ 0 :: junk) (pre ++ (d ++ (w ++ c :: v)))
      (pre ++ (d ++ (w ++ c :: v))).length pre.length = .ok (pre.length + d.length, false) := by
    obtain ⟨a, t, rfl⟩ := List.exists_cons_of_ne_nil hne
    obtain ⟨ha, hmem⟩ := hw a List.mem_cons_self
    rw [List.cons_append, skipDelimiters_spec hds hd (Or.inr hmem) (by simp; omega),
      decide_eq_false ha]
  have htoken := @skipToken_spec ds junk (pre ++ d) w v c
    (pre ++ (d ++ (w ++ c :: v))).length hds hw hc (by simp; omega)
  have hchar := readChar_append (pre ++ (d ++ w)) v c
  have hset := set_append_self (pre ++ (d ++ w)) v c 0
  rw [List.append_assoc, @List.length_append _ pre d] at htoken
  simp only [List.append_assoc, List.length_append, ← Nat.add_assoc] at hchar hset
  rw [strtokR_some hstart hskip htoken hchar, hset]

/-! ### All calls -/

/-- Delimiters that have become null. -/
def Cut (ds : List UInt8) (a b : UInt8) : Prop := b = a ∨ (a ∈ ds ∧ b = 0)

theorem cut_refl (l : List UInt8) : List.Forall₂ (Cut ds) l l :=
  List.forall₂_same.mpr fun _ _ => Or.inl rfl

theorem chars_drop (hw : 0 ∉ w) (pre v : List UInt8) :
    chars ((pre ++ (w ++ 0 :: v)).drop pre.length) = w := by
  rw [List.drop_left, chars_string hw]

theorem strtokCalls_succ {delimiters : List UInt8} {st st₁ st₂ : Tokenizer} {token : Option Nat}
    {tokens : List (Option Nat)} (hcall : strtokR delimiters arg st = .ok (token, st₁))
    (hcalls : strtokCalls delimiters n none st₁ = .ok (tokens, st₂)) :
    strtokCalls delimiters (n + 1) arg st = .ok (token :: tokens, st₂) := by
  rw [strtokCalls, hcall, ok_bind]
  dsimp only
  rw [hcalls]
  rfl

theorem map_range_succ {α : Type} (f : Nat → α) (n : Nat) :
    (List.range (n + 1)).map f = f 0 :: (List.range n).map fun i => f (i + 1) := by
  rw [List.range_succ_eq_map, List.map_cons, List.map_map]
  rfl

/-- The calls from any point of the string on: `u` is what is left of it. The induction is on the
calls; what one of them leaves is where the next one starts. -/
theorem strtokCalls_spec (hds : 0 ∉ ds) (hu : 0 ∉ u) (hstart : arg.or save = some pre.length) :
    ∃ u' st, strtokCalls (ds ++ 0 :: junk) n arg ⟨pre ++ (u ++ [0]), save⟩ =
        .ok ((List.range n).map fun i => (runStarts (isToken ds) false pre.length u)[i]?, st) ∧
      st.buf = pre ++ (u' ++ [0]) ∧ List.Forall₂ (Cut ds) u u' ∧
      ((runStarts (isToken ds) false pre.length u).take n).map (fun p => chars (st.buf.drop p)) =
        (runs (isToken ds) u).take n := by
  induction n generalizing u pre arg save with
  | zero => exact ⟨u, ⟨pre ++ (u ++ [0]), save⟩, rfl, rfl, cut_refl u, rfl⟩
  | succ n ih =>
      have hnull : ∀ x ∈ u, x ≠ 0 := fun x hx heq => hu (heq ▸ hx)
      rcases runs_cases (isToken ds) u with hnone | ⟨d, w, v, rfl, hd, hw, hne, hv⟩
      · -- no token is left, and none will be
        have hdelims : ∀ x ∈ u, x ≠ 0 ∧ x ∈ ds := fun x hx =>
          ⟨hnull x hx, by simpa [isToken] using hnone x hx⟩
        obtain ⟨u', st, hcalls, hbuf, hcut, -⟩ := @ih (pre ++ u) [] none
          (some (pre.length + u.length)) List.not_mem_nil (by rw [List.length_append]; rfl)
        rw [List.nil_append, List.append_assoc] at hcalls
        rw [List.forall₂_nil_left_iff.mp hcut, List.append_assoc] at hbuf
        rw [runStarts_none hnone, runs_none hnone, map_range_succ]
        exact ⟨u, st, strtokCalls_succ (strtokR_none hds hdelims hstart) hcalls, hbuf, cut_refl u,
          rfl⟩
      · have hdelims : ∀ x ∈ d, x ≠ 0 ∧ x ∈ ds := fun x hx =>
          ⟨hnull x (by simp [hx]), by simpa [isToken] using hd x hx⟩
        have htoken : ∀ x ∈ w, x ≠ 0 ∧ x ∉ ds := fun x hx =>
          ⟨hnull x (by simp [hx]), by simpa [isToken] using hw x hx⟩
        have hw0 : 0 ∉ w := fun hmem => (htoken 0 hmem).1 rfl
        rw [runStarts_skip hd, runStarts_run hw hne, runs_skip hd, map_range_succ]
        rcases hv with rfl | ⟨a, t, rfl, ha⟩
        · -- the last token ends at the null
          obtain ⟨u', st, hcalls, hbuf, hcut, -⟩ := @ih (pre ++ (d ++ w)) [] none
            (some (pre.length + d.length + w.length)) List.not_mem_nil
            (by simp [Nat.add_assoc])
          have hcall := @strtokR_run ds junk pre d w [] 0 arg save hds hdelims htoken hne
            (Or.inl rfl) hstart
          have hchars := chars_drop hw0 (pre ++ d) []
          rw [List.forall₂_nil_left_iff.mp hcut] at hbuf
          rw [if_pos rfl] at hcall
          simp only [List.append_assoc, List.nil_append, List.append_nil,
            List.length_append] at hcall hcalls hbuf hchars ⊢
          rw [runs_all hw hne]
          refine ⟨d ++ w, st, strtokCalls_succ hcall hcalls, ?_, cut_refl _, ?_⟩
          · rw [hbuf, List.append_assoc]
          · rw [hbuf, runStarts, List.take_succ_cons, List.take_nil, List.map_singleton, hchars,
              List.take_succ_cons, List.take_nil]
        · -- the delimiter behind the token becomes null, and the next call starts behind it
          have ha' : a ∈ ds := by simpa [isToken] using ha
          have ha0 : a ≠ 0 := hnull a (by simp)
          obtain ⟨t', st, hcalls, hbuf, hcut, hstrings⟩ := @ih (pre ++ (d ++ (w ++ [0]))) t none
            (some (pre.length + d.length + w.length + 1)) (fun hmem => hu (by simp [hmem]))
            (by simp [Nat.add_assoc])
          have hcall := @strtokR_run ds junk pre d w (t ++ [0]) a arg save hds hdelims htoken hne
            (Or.inr ha') hstart
          have hchars := chars_drop hw0 (pre ++ d) (t' ++ [0])
          rw [if_neg ha0] at hcall
          simp only [List.append_assoc, List.cons_append, List.nil_append, List.length_append,
            List.length_singleton, ← Nat.add_assoc] at hcall hcalls hbuf hchars hstrings ⊢
          rw [runs_run hw hne ha, runStarts, ha, if_neg (by decide)]
          refine ⟨d ++ (w ++ 0 :: t'), st, strtokCalls_succ hcall hcalls, ?_, ?_, ?_⟩
          · rw [hbuf]
            simp
          · exact List.rel_append (cut_refl d) (List.rel_append (cut_refl w)
              (List.Forall₂.cons (Or.inr ⟨ha', rfl⟩) hcut))
          · rw [List.take_succ_cons, List.map_cons, hstrings, List.take_succ_cons, hbuf, hchars]

/-- **The tokens of a string.** Any number of calls on a string stay within it and its null,
return its tokens one after the other and then null pointers, and change nothing but the
delimiters that end a token. -/
theorem strtokR_tokens (hds : 0 ∉ ds) (hs : 0 ∉ s) (junk : List UInt8) (save : Option Nat)
    (n : Nat) : ∃ tokens st,
      strtokCalls (ds ++ 0 :: junk) n (some 0) ⟨s ++ [0], save⟩ = .ok (tokens, st) ∧
        Tokenized ds s n tokens st.buf := by
  obtain ⟨s', st, hcalls, hbuf, hcut, hstrings⟩ :=
    @strtokCalls_spec ds junk [] s n (some 0) save hds hs rfl
  rw [List.nil_append] at hcalls hbuf
  refine ⟨_, st, hcalls, rfl, hstrings, fun p hp => ?_, ?_⟩
  · have hlt := runStarts_lt (List.mem_of_mem_take hp)
    have hlength := hcut.length_eq
    rw [hbuf, List.drop_append_of_le_length (by omega)]
    simp
  · rw [hbuf]
    exact List.rel_append hcut (List.Forall₂.cons (Or.inl rfl) List.Forall₂.nil)

/-- `" a b"`, with spaces for delimiters. -/
theorem strtokR_tokens_spaces : ∃ tokens st,
    strtokCalls ([32] ++ 0 :: []) 3 (some 0) ⟨[32, 97, 32, 98] ++ [0], none⟩ = .ok (tokens, st) ∧
      Tokenized [32] [32, 97, 32, 98] 3 tokens st.buf :=
  strtokR_tokens (by decide) (by decide) [] none 3

end OsTools.Stdlib

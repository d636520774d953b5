import Mathlib.Data.List.Basic
/-!
# OsTools.Lib.CString

The functions of C's `string.h` on pointers into an object. A pointer is what is left of the
object: its bytes from where it points on. `none` is a read outside of the object.

A string is its characters, none of which is null, and a null behind them; what follows the
null makes no difference.

A function that reads on until it finds a null is total here only where there is one, so
that to say it returns is to say it stays within the object. The lemmas are about `s ++ 0 ::
p`, a string and whatever follows it; the induction is on the string.
-/

namespace OsTools.CString

/-- `strchr`: the pointer to the first occurrence of the character, which may be the null at the
end. -/
def strchr (c : UInt8) : List UInt8 → Option (Option (List UInt8))
  | [] => none
  | b :: p => if b = c then some (some (b :: p)) else if b = 0 then some none else strchr c p

/-- `strlen`. -/
def strlen : List UInt8 → Option Nat
  | [] => none
  | b :: p => if b = 0 then some 0 else (strlen p).map (· + 1)

/-- `!memcmp (p, q, n)`, where `q` are the `n` bytes of the second argument. -/
def memcmp : List UInt8 → List UInt8 → Option Bool
  | _, [] => some true
  | [], _ :: _ => none
  | a :: p, b :: q => if a = b then memcmp p q else some false

/-- `!strcmp (p, q)`, where `q` are the characters of the second argument. -/
def strcmp : List UInt8 → List UInt8 → Option Bool
  | [], _ => none
  | a :: _, [] => some (a = 0)
  | a :: p, b :: q => if a = b then strcmp p q else some false

/-- The characters of the string at a pointer. -/
def chars (p : List UInt8) : List UInt8 := p.takeWhile (· ≠ 0)

variable {s p q : List UInt8} {c : UInt8}

@[simp] theorem chars_string (h : 0 ∉ s) : chars (s ++ 0 :: p) = s := by
  induction s with
  | nil => simp [chars]
  | cons a s ih =>
      rw [List.mem_cons, not_or] at h
      have hrest := ih h.2
      unfold chars at hrest ⊢
      rw [List.cons_append, List.takeWhile_cons_of_pos (by simpa using Ne.symm h.1), hrest]

/-- The null is found in every string. -/
theorem strchr_string (h : 0 ∉ s) (c : UInt8) :
    (strchr c (s ++ 0 :: p)).map Option.isSome = some (decide (c = 0 ∨ c ∈ s)) := by
  induction s with
  | nil =>
      rw [List.nil_append, strchr]
      by_cases hc : c = 0
      · simp [hc]
      · simp [hc, Ne.symm hc]
  | cons a s ih =>
      rw [List.mem_cons, not_or] at h
      rw [List.cons_append, strchr]
      by_cases hac : a = c
      · simp [hac]
      · rw [if_neg hac, if_neg (Ne.symm h.1), ih h.2]
        simp [Ne.symm hac]

@[simp] theorem strlen_string (h : 0 ∉ s) : strlen (s ++ 0 :: p) = some s.length := by
  induction s with
  | nil => simp [strlen]
  | cons a s ih =>
      rw [List.mem_cons, not_or] at h
      rw [List.cons_append, strlen, if_neg (Ne.symm h.1), ih h.2]
      rfl

/-- Comparing as many bytes as there are reads none outside. -/
theorem memcmp_isSome (h : q.length ≤ p.length) : ∃ b, memcmp p q = some b := by
  induction q generalizing p with
  | nil => exact ⟨true, by simp [memcmp]⟩
  | cons b q ih =>
      cases p with
      | nil => exact absurd h (by simp)
      | cons a p =>
          rw [memcmp]
          by_cases hab : a = b
          · rw [if_pos hab]
            exact ih (by simpa using h)
          · rw [if_neg hab]
            exact ⟨false, rfl⟩

/-- Comparing with bytes that are there. -/
@[simp] theorem memcmp_append (p q : List UInt8) : memcmp (q ++ p) q = some true := by
  induction q with
  | nil => simp [memcmp]
  | cons b q ih => rw [List.cons_append, memcmp, if_pos rfl, ih]

/-- Comparing a string with characters never reads past its end. -/
theorem memcmp_string (h : 0 ∉ q) : memcmp (s ++ 0 :: p) q = some (decide (q <+: s)) := by
  induction q generalizing s with
  | nil => simp [memcmp]
  | cons b q ih =>
      rw [List.mem_cons, not_or] at h
      cases s with
      | nil =>
          rw [List.nil_append, memcmp, if_neg h.1]
          simp
      | cons a s =>
          rw [List.cons_append, memcmp]
          by_cases hab : a = b
          · rw [if_pos hab, ih h.2, hab]
            simp [List.cons_prefix_cons]
          · rw [if_neg hab]
            simp [List.cons_prefix_cons, Ne.symm hab]

/-- `strcmp` decides equality of strings. By induction on both; the shorter one has its null
where the other has a character. -/
theorem strcmp_string (h : 0 ∉ s) (hq : 0 ∉ q) :
    strcmp (s ++ 0 :: p) q = some (decide (s = q)) := by
  induction s generalizing q with
  | nil =>
      cases q with
      | nil => simp [strcmp]
      | cons b q =>
          rw [List.mem_cons, not_or] at hq
          rw [List.nil_append, strcmp, if_neg hq.1]
          simp
  | cons a s ih =>
      rw [List.mem_cons, not_or] at h
      cases q with
      | nil =>
          rw [List.cons_append, strcmp]
          simp [Ne.symm h.1]
      | cons b q =>
          rw [List.mem_cons, not_or] at hq
          rw [List.cons_append, strcmp]
          by_cases hab : a = b
          · rw [if_pos hab, ih h.2 hq.2, hab]
            simp
          · rw [if_neg hab]
            simp [hab]

end OsTools.CString

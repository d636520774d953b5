import OsTools.Lib.Bytes
import OsTools.Vm.Vaddr
/-!
# OsTools.Vm.SyscallArgs

What `syscall_handler` of `userprog/syscall.c` checks before it reads the arguments of a system
call and before it passes the user's memory on. A call is the list of what it does, in order;
`syscall_exit` does not return, so that nothing follows it.

Every case but one asks for its words to be below `PHYS_BASE`. `SYS_SBRK` reads its argument as it
is, which shows for a stack pointer in the last words of the user's memory (`protected_iff`).

All addresses are taken to be mapped. The page fault that an unmapped one gives ends the process.

## Proof shape

A call is a list of events, so that "nothing is done before it is checked" is a statement
about all elements of the list, and "the process ends" one about its last.
`inside_syscallHandler` and `refused_syscallHandler` prove the two for all calls but those
of the defect, with a lemma for each check (`inside_validateBuffer`, `ends_validateBuffer`
and the same for strings); no sum can wrap in the check of a buffer, because it subtracts:
the length is compared with what is left above the buffer (`refuses_iff`).

For `SYS_SBRK` at a stack pointer so high that its argument would lie above the user's
memory (`Overreads`), the event itself is the counterexample, so that the condition is
exact.
-/

namespace OsTools.Vm.SyscallArgs

/-! ### System call numbers -/

def SYS_EXIT : Nat := 1
def SYS_OPEN : Nat := 6
def SYS_READ : Nat := 8
def SYS_WRITE : Nat := 9
def SYS_CLOSE : Nat := 12
def SYS_SBRK : Nat := 14

def STDOUT_FILENO : Int := 1

/-- What a system call does. -/
inductive Event
  /-- An argument word is read. -/
  | word (a : Nat)
  | filesysOpen (filename : Nat)
  | putbuf (buffer size : Nat)
  | fileWrite (buffer size : Nat)
  | fileRead (buffer size : Nat)
  | fileClose
  | sbrk (increment : Int)
  | unimplemented (number : Int)
  /-- `t->open_file` is set; whether to a file. -/
  | openFile (file : Bool)
  | eax (value : Nat)
  | exit (status : Int)
  deriving DecidableEq

/-- What the functions that are called return. -/
structure Callees where
  filesysOpen : Bool
  fileWrite : Int
  fileRead : Int
  sbrk : Nat

/-- `syscall_exit`. -/
def syscallExit (status : Int) : List Event := [.exit status]

/-- `validate_buffer_in_user_region`, with what follows it. -/
def validateBuffer (buffer length : Nat) (next : List Event) : List Event :=
  if isUserVaddr buffer = false ∨ sub32 PHYS_BASE buffer < length then syscallExit (-1) else next

/-- `strnlen`. The one in `lib/string.c` looks at the byte behind the limit as well, which makes no
difference to its result. -/
def strnlen (m : Mem) : Nat → Nat → Nat
  | _, 0 => 0
  | string, maxlen + 1 => if m string = 0 then 0 else strnlen m (string + 1) maxlen + 1

/-- `validate_string_in_user_region`, with what follows it. -/
def validateString (m : Mem) (string : Nat) (next : List Event) : List Event :=
  if isUserVaddr string = false ∨
      strnlen m string (sub32 PHYS_BASE string) = sub32 PHYS_BASE string then
    syscallExit (-1)
  else next

section Calls

variable (k : Callees) (file : Bool)

def syscallOpen (filename : Nat) : List Event :=
  if file then [.eax (toUInt32 (-1))]
  else
    .filesysOpen filename ::
      if k.filesysOpen then [.openFile true, .eax 2] else [.openFile false, .eax (toUInt32 (-1))]

def syscallWrite (fd : Int) (buffer size : Nat) : List Event :=
  if fd = STDOUT_FILENO then [.putbuf buffer size, .eax size]
  else if fd ≠ 2 ∨ file = false then [.eax (toUInt32 (-1))]
  else [.fileWrite buffer size, .eax (toUInt32 k.fileWrite)]

def syscallRead (fd : Int) (buffer size : Nat) : List Event :=
  if fd ≠ 2 ∨ file = false then [.eax (toUInt32 (-1))]
  else [.fileRead buffer size, .eax (toUInt32 k.fileRead)]

def syscallClose (fd : Int) : List Event :=
  if fd = 2 ∧ file = true then [.fileClose, .openFile false] else []

/-- `&args[i]`. -/
def argAddr (esp i : Nat) : Nat := add32 esp (4 * i : Nat)

/-- `args[i]`. -/
def arg (m : Mem) (esp i : Nat) : Nat := m.load (argAddr esp i) 4

/-- `syscall_handler`; `file` says whether the process has a file open. -/
def syscallHandler (m : Mem) (esp : Nat) : List Event :=
  let args := argAddr esp
  let number := arg m esp 0
  validateBuffer (args 0) 4 <| .word (args 0) ::
    if number = SYS_EXIT then
      validateBuffer (args 1) 4 <| .word (args 1) :: syscallExit (toInt32 (arg m esp 1))
    else if number = SYS_OPEN then
      validateBuffer (args 1) 4 <| .word (args 1) ::
        (validateString m (arg m esp 1) <| .word (args 1) :: syscallOpen k file (arg m esp 1))
    else if number = SYS_WRITE then
      validateBuffer (args 1) 12 <| .word (args 2) :: .word (args 3) ::
        (validateBuffer (arg m esp 2) (arg m esp 3) <|
          .word (args 1) :: .word (args 2) :: .word (args 3) ::
            syscallWrite k file (toInt32 (arg m esp 1)) (arg m esp 2) (arg m esp 3))
    else if number = SYS_READ then
      validateBuffer (args 1) 12 <| .word (args 2) :: .word (args 3) ::
        (validateBuffer (arg m esp 2) (arg m esp 3) <|
          .word (args 1) :: .word (args 2) :: .word (args 3) ::
            syscallRead k file (toInt32 (arg m esp 1)) (arg m esp 2) (arg m esp 3))
    else if number = SYS_CLOSE then
      validateBuffer (args 1) 4 <| .word (args 1) :: syscallClose file (toInt32 (arg m esp 1))
    else if number = SYS_SBRK then
      [.word (args 1), .sbrk (toInt32 (arg m esp 1)), .eax k.sbrk]
    else [.word (args 0), .unimplemented (toInt32 number)]

end Calls

/-! ### Protection -/

/-- A string ends below `PHYS_BASE`. -/
def EndsInUser (m : Mem) (string : Nat) : Prop := ∃ n, string + n < PHYS_BASE ∧ m (string + n) = 0

/-- What is read or passed on is below `PHYS_BASE`. -/
def Inside (m : Mem) : Event → Prop
  | .word a => a + 4 ≤ PHYS_BASE
  | .filesysOpen filename => EndsInUser m filename
  | .putbuf buffer size => buffer + size ≤ PHYS_BASE
  | .fileWrite buffer size => buffer + size ≤ PHYS_BASE
  | .fileRead buffer size => buffer + size ≤ PHYS_BASE
  | _ => True

/-- The number of arguments of a system call. -/
def argc (number : Nat) : Nat :=
  if number = SYS_EXIT ∨ number = SYS_OPEN ∨ number = SYS_CLOSE ∨ number = SYS_SBRK then 1
  else if number = SYS_READ ∨ number = SYS_WRITE then 3
  else 0

/-- All that a call asks for is below `PHYS_BASE`. -/
structure InUser (m : Mem) (esp : Nat) : Prop where
  number : esp + 4 ≤ PHYS_BASE
  words : esp + 4 * (1 + argc (arg m esp 0)) ≤ PHYS_BASE
  string : arg m esp 0 = SYS_OPEN → EndsInUser m (arg m esp 1)
  buffer : arg m esp 0 = SYS_READ ∨ arg m esp 0 = SYS_WRITE →
    arg m esp 2 + arg m esp 3 ≤ PHYS_BASE

/-- A call reads and passes on memory below `PHYS_BASE` only, and ends the process with -1 where it
asks for other memory. -/
structure Protected (k : Callees) (file : Bool) (m : Mem) (esp : Nat) : Prop where
  inside : ∀ e ∈ syscallHandler k file m esp, Inside m e
  refused : ¬ InUser m esp → (syscallHandler k file m esp).getLast? = some (.exit (-1))

/-! ### The checks -/

variable {k : Callees} {file : Bool} {m : Mem} {esp b n i : Nat} {next : List Event} {e : Event}

/-- What `validate_buffer_in_user_region` lets pass. -/
def Below (b n : Nat) : Prop := b < PHYS_BASE ∧ b + n ≤ PHYS_BASE

instance (b n : Nat) : Decidable (Below b n) := inferInstanceAs (Decidable (_ ∧ _))

theorem refuses_iff (b n : Nat) :
    (isUserVaddr b = false ∨ sub32 PHYS_BASE b < n) ↔ ¬ Below b n := by
  unfold isUserVaddr Below
  rw [decide_eq_false_iff_not]
  by_cases hb : b < PHYS_BASE
  · have hdelta : sub32 PHYS_BASE b = PHYS_BASE - b := sub32_eq (Nat.le_of_lt hb) (by decide)
    rw [hdelta]
    omega
  · simp [hb]

theorem validateBuffer_eq (b n : Nat) (next : List Event) :
    validateBuffer b n next = if Below b n then next else syscallExit (-1) := by
  have hrefuses := refuses_iff b n
  unfold validateBuffer
  by_cases hbelow : Below b n
  · rw [if_neg (fun h => hrefuses.mp h hbelow), if_pos hbelow]
  · rw [if_pos (hrefuses.mpr hbelow), if_neg hbelow]

/-- `strnlen` reaches its limit when there is no null before it. -/
theorem strnlen_eq_iff (string maxlen : Nat) :
    strnlen m string maxlen = maxlen ↔ ∀ i < maxlen, m (string + i) ≠ 0 := by
  induction maxlen generalizing string with
  | zero => simp [strnlen]
  | succ maxlen ih =>
      rw [strnlen]
      by_cases hnull : m string = 0
      · rw [if_pos hnull]
        constructor
        · intro h
          cases h
        · intro h
          exact absurd hnull (h 0 (Nat.succ_pos _))
      · rw [if_neg hnull, Nat.add_right_cancel_iff, ih]
        constructor
        · intro h i hi
          cases i with
          | zero => exact hnull
          | succ i =>
              rw [← Nat.add_assoc, Nat.add_right_comm]
              exact h i (by omega)
        · intro h i hi
          rw [Nat.add_right_comm, Nat.add_assoc]
          exact h (i + 1) (by omega)

/-- What `validate_string_in_user_region` lets pass. -/
theorem validateString_of (h : ¬ EndsInUser m b) :
    validateString m b next = syscallExit (-1) := by
  unfold validateString isUserVaddr
  by_cases hb : b < PHYS_BASE
  · have hdelta : sub32 PHYS_BASE b = PHYS_BASE - b := sub32_eq (Nat.le_of_lt hb) (by decide)
    rw [hdelta, if_pos]
    refine Or.inr ((strnlen_eq_iff b _).mpr fun i hi hnull => h ⟨i, by omega, hnull⟩)
  · rw [if_pos (Or.inl (decide_eq_false hb))]

/-- The words of a stack that is below `PHYS_BASE` do not wrap around. -/
theorem argAddr_eq (hesp : esp < PHYS_BASE) (hi : i ≤ 3) : argAddr esp i = esp + 4 * i := by
  unfold argAddr
  unfold PHYS_BASE at hesp
  exact add32_nat (by omega)

/-! ### What stays inside -/

theorem inside_validateBuffer (h : Below b n → ∀ e ∈ next, Inside m e) :
    ∀ e ∈ validateBuffer b n next, Inside m e := by
  rw [validateBuffer_eq]
  by_cases hbelow : Below b n
  · rw [if_pos hbelow]
    exact h hbelow
  · rw [if_neg hbelow]
    exact List.forall_mem_singleton.mpr trivial

theorem inside_validateString (h : EndsInUser m b → ∀ e ∈ next, Inside m e) :
    ∀ e ∈ validateString m b next, Inside m e := by
  by_cases hends : EndsInUser m b
  · unfold validateString
    split
    · exact List.forall_mem_singleton.mpr trivial
    · exact h hends
  · rw [validateString_of hends]
    exact List.forall_mem_singleton.mpr trivial

theorem inside_cons (he : Inside m e) (h : ∀ e ∈ next, Inside m e) :
    ∀ e' ∈ e :: next, Inside m e' :=
  List.forall_mem_cons.mpr ⟨he, h⟩

theorem inside_nil : ∀ e ∈ ([] : List Event), Inside m e := nofun

theorem inside_syscallOpen (h : EndsInUser m b) : ∀ e ∈ syscallOpen k file b, Inside m e := by
  unfold syscallOpen
  split
  · exact inside_cons trivial inside_nil
  · refine inside_cons h ?_
    split
    · exact inside_cons trivial (inside_cons trivial inside_nil)
    · exact inside_cons trivial (inside_cons trivial inside_nil)

theorem inside_syscallWrite (fd : Int) (h : b + n ≤ PHYS_BASE) :
    ∀ e ∈ syscallWrite k file fd b n, Inside m e := by
  unfold syscallWrite
  split
  · exact inside_cons h (inside_cons trivial inside_nil)
  · split
    · exact inside_cons trivial inside_nil
    · exact inside_cons h (inside_cons trivial inside_nil)

theorem inside_syscallRead (fd : Int) (h : b + n ≤ PHYS_BASE) :
    ∀ e ∈ syscallRead k file fd b n, Inside m e := by
  unfold syscallRead
  split
  · exact inside_cons trivial inside_nil
  · exact inside_cons h (inside_cons trivial inside_nil)

theorem inside_syscallClose (fd : Int) : ∀ e ∈ syscallClose file fd, Inside m e := by
  unfold syscallClose
  split
  · exact inside_cons trivial (inside_cons trivial inside_nil)
  · exact inside_nil

/-! ### What is refused -/

/-- The process is ended with -1. -/
def Ends (t : List Event) : Prop := t.getLast? = some (.exit (-1))

theorem ends_cons (h : Ends next) : Ends (e :: next) := by
  unfold Ends at h ⊢
  rw [List.getLast?_cons, h]
  rfl

theorem ends_validateBuffer (h : Below b n → Ends next) : Ends (validateBuffer b n next) := by
  rw [validateBuffer_eq]
  by_cases hbelow : Below b n
  · rw [if_pos hbelow]
    exact h hbelow
  · rw [if_neg hbelow]
    rfl

theorem ends_validateString (h : EndsInUser m b → Ends next) : Ends (validateString m b next) := by
  by_cases hends : EndsInUser m b
  · unfold validateString
    split
    · rfl
    · exact h hends
  · rw [validateString_of hends]
    rfl

/-! ### The handler -/

/-- The stack pointers for which `SYS_SBRK` reads over the end of the user's memory. -/
def Overreads (m : Mem) (esp : Nat) : Prop :=
  esp + 4 ≤ PHYS_BASE ∧ arg m esp 0 = SYS_SBRK ∧ PHYS_BASE < esp + 8

/-- All that the handler does with memory is inside of the user's part. Behind the check of
the number there is a case for each call, with the check of its own arguments and then what it
does with them. -/
theorem inside_syscallHandler (hesp : esp < 2 ^ 32) (h : ¬ Overreads m esp) :
    ∀ e ∈ syscallHandler k file m esp, Inside m e := by
  have hzero : argAddr esp 0 = esp := add32_nat hesp
  unfold syscallHandler
  dsimp only
  rw [hzero]
  refine inside_validateBuffer fun hnumber => inside_cons hnumber.2 ?_
  have haddr : ∀ i ≤ 3, argAddr esp i = esp + 4 * i := fun i hi => argAddr_eq hnumber.1 hi
  have hlast : argAddr esp 1 + 12 ≤ PHYS_BASE →
      argAddr esp 1 + 4 ≤ PHYS_BASE ∧ argAddr esp 2 + 4 ≤ PHYS_BASE ∧
        argAddr esp 3 + 4 ≤ PHYS_BASE := by
    rw [haddr 1 (by decide), haddr 2 (by decide), haddr 3 (by decide)]
    omega
  by_cases hexit : arg m esp 0 = SYS_EXIT
  · rw [if_pos hexit]
    exact inside_validateBuffer fun hone => inside_cons hone.2 (inside_cons trivial inside_nil)
  rw [if_neg hexit]
  by_cases hopen : arg m esp 0 = SYS_OPEN
  · rw [if_pos hopen]
    exact inside_validateBuffer fun hone => inside_cons hone.2 <|
      inside_validateString fun hstring => inside_cons hone.2 (inside_syscallOpen hstring)
  rw [if_neg hopen]
  by_cases hwrite : arg m esp 0 = SYS_WRITE
  · rw [if_pos hwrite]
    refine inside_validateBuffer fun hthree => ?_
    obtain ⟨h₁, h₂, h₃⟩ := hlast hthree.2
    exact inside_cons h₂ <| inside_cons h₃ <| inside_validateBuffer fun hbuffer =>
      inside_cons h₁ <| inside_cons h₂ <| inside_cons h₃ (inside_syscallWrite _ hbuffer.2)
  rw [if_neg hwrite]
  by_cases hread : arg m esp 0 = SYS_READ
  · rw [if_pos hread]
    refine inside_validateBuffer fun hthree => ?_
    obtain ⟨h₁, h₂, h₃⟩ := hlast hthree.2
    exact inside_cons h₂ <| inside_cons h₃ <| inside_validateBuffer fun hbuffer =>
      inside_cons h₁ <| inside_cons h₂ <| inside_cons h₃ (inside_syscallRead _ hbuffer.2)
  rw [if_neg hread]
  by_cases hclose : arg m esp 0 = SYS_CLOSE
  · rw [if_pos hclose]
    exact inside_validateBuffer fun hone => inside_cons hone.2 (inside_syscallClose _)
  rw [if_neg hclose]
  by_cases hsbrk : arg m esp 0 = SYS_SBRK
  · -- no check: the word is inside because of the stack pointer
    rw [if_pos hsbrk]
    have hword : argAddr esp 1 + 4 ≤ PHYS_BASE := by
      rw [haddr 1 (by decide)]
      exact Nat.le_of_not_lt fun hgt => h ⟨hnumber.2, hsbrk, hgt⟩
    exact inside_cons hword (inside_cons trivial (inside_cons trivial inside_nil))
  · rw [if_neg hsbrk]
    exact inside_cons hnumber.2 (inside_cons trivial inside_nil)

theorem InUser.of {number : Nat} (hnumber : arg m esp 0 = number) (hfirst : esp + 4 ≤ PHYS_BASE)
    (hwords : esp + 4 * (1 + argc number) ≤ PHYS_BASE)
    (hstring : number = SYS_OPEN → EndsInUser m (arg m esp 1))
    (hbuffer : number = SYS_READ ∨ number = SYS_WRITE → arg m esp 2 + arg m esp 3 ≤ PHYS_BASE) :
    InUser m esp := by
  subst hnumber
  exact ⟨hfirst, hwords, hstring, hbuffer⟩

/-- A case that goes on has found all it asks for below `PHYS_BASE`. So if something is not,
the call has ended with -1, whichever check it was. -/
theorem refused_syscallHandler (hesp : esp < 2 ^ 32) (h : ¬ Overreads m esp)
    (hout : ¬ InUser m esp) : Ends (syscallHandler k file m esp) := by
  have hzero : argAddr esp 0 = esp := add32_nat hesp
  unfold syscallHandler
  dsimp only
  rw [hzero]
  refine ends_validateBuffer fun hfirst => ends_cons ?_
  have hone : argAddr esp 1 = esp + 4 := argAddr_eq hfirst.1 (by decide)
  rw [hone]
  by_cases hexit : arg m esp 0 = SYS_EXIT
  · rw [if_pos hexit]
    exact ends_validateBuffer fun hword =>
      absurd (InUser.of hexit hfirst.2 hword.2 nofun nofun) hout
  rw [if_neg hexit]
  by_cases hopen : arg m esp 0 = SYS_OPEN
  · rw [if_pos hopen]
    exact ends_validateBuffer fun hword => ends_cons <| ends_validateString fun hstring =>
      absurd (InUser.of hopen hfirst.2 hword.2 (fun _ => hstring) nofun) hout
  rw [if_neg hopen]
  by_cases hwrite : arg m esp 0 = SYS_WRITE
  · rw [if_pos hwrite]
    exact ends_validateBuffer fun hwords => ends_cons <| ends_cons <|
      ends_validateBuffer fun hbuffer =>
        absurd (InUser.of hwrite hfirst.2 hwords.2 nofun fun _ => hbuffer.2) hout
  rw [if_neg hwrite]
  by_cases hread : arg m esp 0 = SYS_READ
  · rw [if_pos hread]
    exact ends_validateBuffer fun hwords => ends_cons <| ends_cons <|
      ends_validateBuffer fun hbuffer =>
        absurd (InUser.of hread hfirst.2 hwords.2 nofun fun _ => hbuffer.2) hout
  rw [if_neg hread]
  by_cases hclose : arg m esp 0 = SYS_CLOSE
  · rw [if_pos hclose]
    exact ends_validateBuffer fun hword =>
      absurd (InUser.of hclose hfirst.2 hword.2 nofun nofun) hout
  rw [if_neg hclose]
  by_cases hsbrk : arg m esp 0 = SYS_SBRK
  · have hword : esp + 8 ≤ PHYS_BASE := Nat.le_of_not_lt fun hgt => h ⟨hfirst.2, hsbrk, hgt⟩
    exact absurd (InUser.of hsbrk hfirst.2 hword nofun nofun) hout
  · -- a call that is not implemented has no arguments
    have hargc : argc (arg m esp 0) = 0 := by simp [argc, hexit, hopen, hwrite, hread, hclose, hsbrk]
    refine absurd (InUser.of rfl hfirst.2 ?_ (fun h => absurd h hopen) ?_) hout
    · rw [hargc]
      exact hfirst.2
    · intro h
      exact absurd h (by simp [hread, hwrite])

/-- **Which calls are protected.** All but `SYS_SBRK` with a stack pointer in the last words,
for which the call reads a word that it has not checked. -/
theorem protected_iff (k : Callees) (file : Bool) (m : Mem) (hesp : esp < 2 ^ 32) :
    Protected k file m esp ↔
      ¬ (esp + 4 ≤ PHYS_BASE ∧ arg m esp 0 = SYS_SBRK ∧ PHYS_BASE < esp + 8) := by
  constructor
  · intro h hover
    obtain ⟨hfirst, hsbrk, hgt⟩ := hover
    have hbelow : Below (argAddr esp 0) 4 := by
      rw [show argAddr esp 0 = esp from add32_nat hesp]
      exact ⟨by omega, hfirst⟩
    have hone : argAddr esp 1 = esp + 4 := argAddr_eq (by omega) (by decide)
    have hmem : Event.word (argAddr esp 1) ∈ syscallHandler k file m esp := by
      unfold syscallHandler
      dsimp only
      rw [validateBuffer_eq, if_pos hbelow, hsbrk]
      exact List.mem_cons_of_mem _ List.mem_cons_self
    have hinside : argAddr esp 1 + 4 ≤ PHYS_BASE := h.inside _ hmem
    omega
  · intro h
    exact ⟨inside_syscallHandler hesp h, fun hout => refused_syscallHandler hesp h hout⟩

/-- The stack of `write (1, 0xbfffff40, 16)`. -/
def sampleStack (a : Nat) : UInt8 :=
  match a - 0xbfffff00 with
  | 0 => UInt8.ofNat SYS_WRITE
  | 4 => 1
  | 8 => 0x40
  | 9 => 0xff
  | 10 => 0xff
  | 11 => 0xbf
  | 12 => 16
  | _ => 0

theorem protected_iff_write : arg sampleStack 0xbfffff00 0 = SYS_WRITE ∧
    arg sampleStack 0xbfffff00 2 = 0xbfffff40 ∧
    Protected ⟨false, 0, 0, 0⟩ false sampleStack 0xbfffff00 :=
  ⟨by decide +kernel, by decide +kernel,
    (protected_iff _ _ _ (by decide)).mpr fun h => absurd h.2.2 (by decide)⟩

/-- `SYS_SBRK` in the last word of the user's memory. -/
theorem sbrk_overreads : ¬ Protected ⟨false, 0, 0, 0⟩ false
    (fun a => if a = 0xbffffffc then 14 else 0) 0xbffffffc := by
  intro h
  have hinside : 0xc0000000 + 4 ≤ PHYS_BASE := h.inside (.word 0xc0000000) (by decide)
  exact absurd hinside (by decide)

end OsTools.Vm.SyscallArgs

import Mathlib.Data.List.TakeWhile
import Mathlib.Logic.Function.Basic
import OsTools.Boot.CommandLine
import OsTools.Stdlib.Random
/-!
# OsTools.Boot.Options

What the kernel makes of its command line: `parse_options` and `run_actions` (`threads/init.c`),
with `atoi`. A line is written from settings and actions, and read back as them.

The code is that of a kernel with threads, user programs and file systems, without virtual memory.

## Proof shape

A setting is printed as a word and read back (`splitOption_word`): the name has no `=` in
it, so that the first one is where it ends, and a value may have more of them. A list of
settings is read in order, each acting on the variables that those before have left
(`optionLoop_settings`), and the loop stops at the first action because no action begins
with a `-`.

The actions are by induction along `runActions`, which takes as many words as the table
says. That everything fits into `argv` is a count again (`commandLine_length_le`), with the
actions' arguments, which may be empty, paid for by the letters of the action.
-/

namespace OsTools.Boot

open OsTools.Stdlib.Random (Rng randomInit)

/-- A string of the source. -/
def text (s : String) : List UInt8 := s.toList.map fun c => UInt8.ofNat c.toNat

/-! ### `atoi` -/

def isspace (c : UInt8) : Bool := c = 32 ∨ 9 ≤ c ∧ c ≤ 13

def isdigit (c : UInt8) : Bool := 48 ≤ c ∧ c ≤ 57

/-- The digits are subtracted, so that the least number can be read. -/
def parseDigits (value : UInt32) : List UInt8 → UInt32
  | [] => value
  | c :: s => if isdigit c then parseDigits (value * 10 - (c - 48).toUInt32) s else value

/-- `atoi`. An `int` is its bits, and overflow wraps around. -/
def atoi (s : List UInt8) : UInt32 :=
  match s.dropWhile isspace with
  | 43 :: s => 0 - parseDigits 0 s
  | 45 :: s => parseDigits 0 s
  | s => 0 - parseDigits 0 s

/-! ### `parse_options` -/

inductive SchedPolicy
  | fifo
  | prio
  | fair
  | mlfqs
  deriving DecidableEq

inductive ShutdownType
  | none
  | powerOff
  | reboot
  deriving DecidableEq

/-- The variables that options set. -/
structure Options where
  how : ShutdownType
  formatFilesys : Bool
  filesysBdevName : Option (List UInt8)
  scratchBdevName : Option (List UInt8)
  userPageLimit : UInt32
  schedulerFlags : SchedPolicy → Bool
  activeSchedPolicy : SchedPolicy
  rng : Rng

/-- The variables before the line is read. -/
def initialOptions : Options where
  how := .none
  formatFilesys := false
  filesysBdevName := none
  scratchBdevName := none
  userPageLimit := 0xffffffff
  schedulerFlags := fun _ => false
  activeSchedPolicy := .fifo
  rng := ⟨⟨Vector.replicate 256 0⟩, 0, 0, false⟩

/-- How the kernel stops. -/
inductive Stop
  /-- `usage`. -/
  | usage
  | unknownOption (name : List UInt8)
  | unknownScheduler (value : List UInt8)
  | tooManySchedulers
  /-- A string function is called with a null pointer. -/
  | null
  | unknownAction (name : List UInt8)
  | missingArguments (name : List UInt8) (cnt : Nat)
  deriving DecidableEq

/-- `strtok_r` at the first `=`, and what is behind it: null if that is nothing. -/
def splitOption (arg : List UInt8) : List UInt8 × Option (List UInt8) :=
  let value := (arg.dropWhile (· ≠ 61)).drop 1
  (arg.takeWhile (· ≠ 61), if value = [] then none else some value)

/-- `scheduler_flags[p] = 1`. -/
def Options.setFlag (o : Options) (p : SchedPolicy) : Options :=
  { o with schedulerFlags := Function.update o.schedulerFlags p true }

/-- `-sched`. -/
def schedOption (o : Options) (value : List UInt8) : Except Stop Options :=
  if value = text "fifo" then .ok (o.setFlag .fifo)
  else if value = text "prio" then .ok (o.setFlag .prio)
  else if value = text "fair" then .ok (o.setFlag .fair)
  else if value = text "mlfqs" then .ok (o.setFlag .mlfqs)
  else .error (.unknownScheduler value)

/-- The string functions assert that they are given a string. -/
def nonNull (value : Option (List UInt8)) : Except Stop (List UInt8) :=
  match value with
  | none => .error .null
  | some value => .ok value

/-- The body of the loop. -/
def parseOption (o : Options) (name : List UInt8) (value : Option (List UInt8)) :
    Except Stop Options :=
  if name = text "-h" then .error .usage
  else if name = text "-q" then .ok { o with how := .powerOff }
  else if name = text "-r" then .ok { o with how := .reboot }
  else if name = text "-f" then .ok { o with formatFilesys := true }
  else if name = text "-filesys" then .ok { o with filesysBdevName := value }
  else if name = text "-scratch" then .ok { o with scratchBdevName := value }
  else if name = text "-rs" then do
    let value ← nonNull value
    .ok { o with rng := randomInit (atoi value) }
  else if name = text "-sched" then do
    let value ← nonNull value
    schedOption o value
  else if name = text "-ul" then do
    let value ← nonNull value
    .ok { o with userPageLimit := atoi value }
  else .error (.unknownOption name)

/-- The loop, up to the first argument that is not an option. -/
def optionLoop (o : Options) : List (List UInt8) → Except Stop (Options × List (List UInt8))
  | [] => .ok (o, [])
  | arg :: argv =>
      if arg.head? = some 45 then do
        let (name, value) := splitOption arg
        let o ← parseOption o name value
        optionLoop o argv
      else .ok (o, arg :: argv)

/-- `sched_flags_set`. -/
def Options.flagsSet (o : Options) : List SchedPolicy :=
  [SchedPolicy.fifo, .prio, .fair, .mlfqs].filter fun p => o.schedulerFlags p

/-- `SCHED_DEFAULT`. -/
def SCHED_DEFAULT : SchedPolicy := .fifo

/-- The policy that the flags ask for. -/
def choosePolicy (o : Options) : Except Stop Options :=
  match o.flagsSet with
  | [] => .ok { o with activeSchedPolicy := SCHED_DEFAULT }
  | [p] => .ok { o with activeSchedPolicy := p }
  | _ => .error .tooManySchedulers

/-- `parse_options`, at the time `clock`. -/
def parseOptions (o : Options) (clock : UInt32) (argv : List (List UInt8)) :
    Except Stop (Options × List (List UInt8)) := do
  let (o, argv) ← optionLoop { o with schedulerFlags := fun _ => false } argv
  let o ← choosePolicy o
  .ok ({ o with rng := randomInit clock }, argv)

/-! ### `run_actions` -/

/-- The table: the names, and the number of arguments behind them. -/
def actions : List (List UInt8 × Nat) :=
  [(text "run", 1), (text "rukt", 1), (text "rtkt", 1), (text "ls", 0), (text "cat", 1),
    (text "rm", 1), (text "extract", 0), (text "append", 1)]

/-- The call of an action. -/
structure Action where
  name : List UInt8
  args : List (List UInt8)
  deriving DecidableEq

/-- `run_actions`: the calls that are made, and how it stops if it does not get to the end. -/
def runActions : List (List UInt8) → List Action × Option Stop
  | [] => ([], none)
  | name :: argv =>
      match actions.lookup name with
      | none => ([], some (.unknownAction name))
      | some cnt =>
          if argv.length < cnt then ([], some (.missingArguments name cnt))
          else
            let (calls, stop) := runActions (argv.drop cnt)
            (⟨name, argv.take cnt⟩ :: calls, stop)
termination_by argv => argv.length
decreasing_by
  simp only [List.length_drop, List.length_cons]
  omega

/-- The part of `main` that goes through the command line. -/
def runCommandLine (o : Options) (clock : UInt32) (argv : List (List UInt8)) :
    Except Stop (Options × List Action × Option Stop) := do
  let (o, argv) ← parseOptions o clock argv
  .ok (o, runActions argv)

/-! ### Lines as they are meant -/

/-- A setting. -/
inductive Setting
  | powerOff
  | reboot
  | format
  | filesys (bdev : List UInt8)
  | scratch (bdev : List UInt8)
  | seed (number : List UInt8)
  | sched (policy : SchedPolicy)
  | userLimit (number : List UInt8)

def SchedPolicy.text : SchedPolicy → List UInt8
  | fifo => Boot.text "fifo"
  | prio => Boot.text "prio"
  | fair => Boot.text "fair"
  | mlfqs => Boot.text "mlfqs"

namespace Setting

/-- The name of the option, and its value. -/
def parts : Setting → List UInt8 × Option (List UInt8)
  | powerOff => (Boot.text "-q", none)
  | reboot => (Boot.text "-r", none)
  | format => (Boot.text "-f", none)
  | filesys bdev => (Boot.text "-filesys", some bdev)
  | scratch bdev => (Boot.text "-scratch", some bdev)
  | seed number => (Boot.text "-rs", some number)
  | sched policy => (Boot.text "-sched", some policy.text)
  | userLimit number => (Boot.text "-ul", some number)

/-- The argument. -/
def word (s : Setting) : List UInt8 :=
  match s.parts with
  | (name, none) => name
  | (name, some value) => name ++ 61 :: value

/-- What it is to do. -/
def apply (o : Options) : Setting → Options
  | powerOff => { o with how := .powerOff }
  | reboot => { o with how := .reboot }
  | format => { o with formatFilesys := true }
  | filesys bdev => { o with filesysBdevName := some bdev }
  | scratch bdev => { o with scratchBdevName := some bdev }
  | seed number => { o with rng := randomInit (atoi number) }
  | sched policy => o.setFlag policy
  | userLimit number => { o with userPageLimit := atoi number }

/-- A value is not empty. -/
def Valid (s : Setting) : Prop := ∀ value, s.parts.2 = some value → value ≠ []

end Setting

namespace Action

/-- The words of an action. -/
def words (a : Action) : List (List UInt8) := a.name :: a.args

/-- It is one of the table, with its arguments. -/
def Valid (a : Action) : Prop := actions.lookup a.name = some a.args.length

end Action

/-- The line for settings and actions. -/
def commandLine (settings : List Setting) (acts : List Action) : List (List UInt8) :=
  settings.map Setting.word ++ acts.flatMap Action.words

/-- The policy that settings choose, if they do not choose two. -/
inductive Chooses (settings : List Setting) : SchedPolicy → Prop
  | default : (∀ p, Setting.sched p ∉ settings) → Chooses settings SCHED_DEFAULT
  | asked {p : SchedPolicy} : Setting.sched p ∈ settings →
      (∀ q, Setting.sched q ∈ settings → q = p) → Chooses settings p

/-- Where `runActions` stops, and how. -/
inductive StopsAt : List (List UInt8) → Option Stop → Prop
  | done : StopsAt [] none
  | unknown {name : List UInt8} {argv : List (List UInt8)} : actions.lookup name = none →
      StopsAt (name :: argv) (some (.unknownAction name))
  | missing {name : List UInt8} {argv : List (List UInt8)} {cnt : Nat} :
      actions.lookup name = some cnt → argv.length < cnt →
      StopsAt (name :: argv) (some (.missingArguments name cnt))

variable {o : Options} {settings : List Setting} {acts : List Action} {s : Setting} {a : Action}
  {argv : List (List UInt8)} {clock : UInt32}

/-! ### Settings -/

theorem parts_name (s : Setting) : 61 ∉ s.parts.1 ∧ s.parts.1.head? = some 45 := by
  cases s <;> simp only [Setting.parts] <;> decide

theorem takeWhile_name {name : List UInt8} (h : 61 ∉ name) (rest : List UInt8) :
    (name ++ 61 :: rest).takeWhile (· ≠ 61) = name ∧
      (name ++ 61 :: rest).dropWhile (· ≠ 61) = 61 :: rest := by
  induction name with
  | nil => exact ⟨rfl, rfl⟩
  | cons c name ih =>
      have hc : c ≠ 61 := fun heq => h (heq ▸ List.mem_cons_self)
      obtain ⟨htake, hdrop⟩ := ih fun hmem => h (List.mem_cons_of_mem _ hmem)
      have hpos : decide (c ≠ 61) = true := decide_eq_true hc
      refine ⟨?_, ?_⟩
      · exact (List.takeWhile_cons_of_pos (p := fun c => decide (c ≠ 61)) hpos).trans
          (congrArg (List.cons c) htake)
      · exact (List.dropWhile_cons_of_pos (p := fun c => decide (c ≠ 61)) hpos).trans hdrop

theorem splitOption_word (h : s.Valid) : splitOption s.word = s.parts := by
  obtain ⟨hname, -⟩ := parts_name s
  unfold splitOption Setting.word
  cases hparts : s.parts with
  | mk name value =>
      rw [hparts] at hname
      cases value with
      | none =>
          have hall : ∀ c ∈ name, (decide (c ≠ 61)) = true := fun c hc =>
            decide_eq_true fun heq => hname (heq ▸ hc)
          dsimp only
          rw [List.takeWhile_eq_self_iff.mpr hall, List.dropWhile_eq_nil_iff.mpr hall]
          rfl
      | some value =>
          obtain ⟨htake, hdrop⟩ := takeWhile_name hname value
          have hne : value ≠ [] := h value (by rw [hparts])
          dsimp only
          rw [htake, hdrop, List.drop_one, List.tail_cons, if_neg hne]

theorem parseOption_parts (o : Options) (s : Setting) :
    parseOption o s.parts.1 s.parts.2 = .ok (s.apply o) := by
  cases s with
  | sched policy => cases policy <;> rfl
  | _ => rfl

theorem head_word (s : Setting) : s.word.head? = some 45 := by
  obtain ⟨-, hhead⟩ := parts_name s
  unfold Setting.word
  cases hparts : s.parts with
  | mk name value =>
      rw [hparts] at hhead
      cases value with
      | none => exact hhead
      | some value =>
          dsimp only
          rw [List.head?_append, hhead]
          rfl

/-- By induction on the settings. -/
theorem optionLoop_settings (hvalid : ∀ s ∈ settings, s.Valid)
    (hstop : ∀ w ∈ argv.head?, w.head? ≠ some 45) :
    optionLoop o (settings.map Setting.word ++ argv) =
      .ok (settings.foldl Setting.apply o, argv) := by
  induction settings generalizing o with
  | nil =>
      cases argv with
      | nil => rfl
      | cons w argv => exact if_neg (hstop w rfl)
  | cons s settings ih =>
      show (if s.word.head? = some 45 then _ else _) = _
      rw [if_pos (head_word s), splitOption_word (hvalid s List.mem_cons_self)]
      show (parseOption o s.parts.1 s.parts.2 >>= _) = _
      rw [parseOption_parts, ok_bind]
      exact ih fun s' hs' => hvalid s' (List.mem_cons_of_mem _ hs')

/-! ### The policy -/

theorem flags_apply (o : Options) (s : Setting) (p : SchedPolicy) :
    (s.apply o).schedulerFlags p = true ↔ o.schedulerFlags p = true ∨ s = .sched p := by
  cases s with
  | sched q =>
      show Function.update o.schedulerFlags q true p = true ↔ _
      rw [Setting.sched.injEq]
      by_cases hp : p = q
      · rw [hp, Function.update_self]
        exact ⟨fun _ => .inr rfl, fun _ => rfl⟩
      · rw [Function.update_of_ne hp]
        exact ⟨.inl, fun h => h.resolve_right fun heq => hp heq.symm⟩
  | _ => exact ⟨.inl, fun h => h.resolve_right fun heq => Setting.noConfusion heq⟩

theorem flags_foldl (o : Options) (settings : List Setting) (p : SchedPolicy) :
    (settings.foldl Setting.apply o).schedulerFlags p = true ↔
      o.schedulerFlags p = true ∨ Setting.sched p ∈ settings := by
  induction settings generalizing o with
  | nil => exact ⟨.inl, fun h => h.resolve_right List.not_mem_nil⟩
  | cons s settings ih =>
      rw [List.foldl_cons, ih, flags_apply, List.mem_cons, or_assoc, @eq_comm _ s]

theorem mem_flagsSet (o : Options) (p : SchedPolicy) :
    p ∈ o.flagsSet ↔ o.schedulerFlags p = true := by
  unfold Options.flagsSet
  rw [List.mem_filter]
  exact and_iff_right (by cases p <;> decide)

theorem nodup_flagsSet (o : Options) : o.flagsSet.Nodup := List.Nodup.filter _ (by decide)

/-- What the settings leave, before the policy is chosen. -/
def told (o : Options) (settings : List Setting) : Options :=
  settings.foldl Setting.apply { o with schedulerFlags := fun _ => false }

theorem mem_flagsSet_told (o : Options) (settings : List Setting) (p : SchedPolicy) :
    p ∈ (told o settings).flagsSet ↔ Setting.sched p ∈ settings := by
  rw [mem_flagsSet, told, flags_foldl]
  exact or_iff_right Bool.false_ne_true

theorem choosePolicy_chooses {p : SchedPolicy} (h : Chooses settings p) :
    choosePolicy (told o settings) = .ok { told o settings with activeSchedPolicy := p } := by
  unfold choosePolicy
  cases h with
  | default hnone =>
      have hflags : (told o settings).flagsSet = [] :=
        List.eq_nil_iff_forall_not_mem.mpr fun p hp => hnone p ((mem_flagsSet_told ..).mp hp)
      rw [hflags]
  | asked hp hall =>
      have hperm : ((told o settings).flagsSet).Perm [p] := by
        rw [List.perm_ext_iff_of_nodup (nodup_flagsSet _) (List.nodup_singleton p)]
        intro q
        rw [mem_flagsSet_told, List.mem_singleton]
        exact ⟨hall q, fun h => h ▸ hp⟩
      rw [List.perm_singleton.mp hperm]

theorem choosePolicy_two {p q : SchedPolicy} (hne : p ≠ q) (hp : Setting.sched p ∈ settings)
    (hq : Setting.sched q ∈ settings) :
    choosePolicy (told o settings) = .error .tooManySchedulers := by
  have hp := (mem_flagsSet_told o settings p).mpr hp
  have hq := (mem_flagsSet_told o settings q).mpr hq
  unfold choosePolicy
  split
  next hflags => rw [hflags] at hp; cases hp
  next r hflags =>
    rw [hflags, List.mem_singleton] at hp hq
    exact absurd (hp.trans hq.symm) hne
  next => rfl

/-! ### Actions -/

theorem runActions_words (ha : a.Valid) (argv : List (List UInt8)) :
    runActions (a.words ++ argv) = (a :: (runActions argv).1, (runActions argv).2) := by
  unfold Action.words
  rw [List.cons_append, runActions, ha]
  dsimp only
  rw [if_neg (by rw [List.length_append]; omega), List.drop_left, List.take_left]

theorem StopsAt.run {rest : List (List UInt8)} {stop : Option Stop} (h : StopsAt rest stop) :
    runActions rest = ([], stop) := by
  cases h with
  | done => rw [runActions]
  | unknown hname => rw [runActions, hname]
  | missing hname hlt =>
      rw [runActions, hname]
      exact if_pos hlt

/-- By induction on the actions. -/
theorem runActions_append {rest : List (List UInt8)} {stop : Option Stop}
    (hvalid : ∀ a ∈ acts, a.Valid) (h : StopsAt rest stop) :
    runActions (acts.flatMap Action.words ++ rest) = (acts, stop) := by
  induction acts with
  | nil => exact h.run
  | cons a acts ih =>
      rw [List.flatMap_cons, List.append_assoc, runActions_words (hvalid a List.mem_cons_self),
        ih fun b hb => hvalid b (List.mem_cons_of_mem _ hb)]

theorem runActions_flatMap (hvalid : ∀ a ∈ acts, a.Valid) :
    runActions (acts.flatMap Action.words) = (acts, none) := by
  have h := runActions_append hvalid .done
  rwa [List.append_nil] at h

/-- By induction along `runActions`. -/
theorem runActions_calls (argv : List (List UInt8)) :
    ∃ rest, argv = (runActions argv).1.flatMap Action.words ++ rest ∧
      (∀ a ∈ (runActions argv).1, a.Valid) ∧ StopsAt rest (runActions argv).2 := by
  fun_induction runActions argv with
  | case1 => exact ⟨[], rfl, List.forall_mem_nil _, .done⟩
  | case2 name argv hname => exact ⟨name :: argv, rfl, List.forall_mem_nil _, .unknown hname⟩
  | case3 name argv cnt hname hlt =>
      exact ⟨name :: argv, rfl, List.forall_mem_nil _, .missing hname hlt⟩
  | case4 name argv cnt hname hle calls stop hrun ih =>
      rw [hrun] at ih
      obtain ⟨rest, hline, hvalid, hstop⟩ := ih
      have hname : Action.Valid ⟨name, argv.take cnt⟩ := by
        unfold Action.Valid
        rw [hname, List.length_take, Nat.min_eq_left (by omega)]
      refine ⟨rest, ?_, List.forall_mem_cons.mpr ⟨hname, hvalid⟩, hstop⟩
      rw [List.flatMap_cons, List.append_assoc, ← hline, Action.words, List.cons_append,
        List.take_append_drop]

/-- No action is taken for an option. -/
theorem Action.Valid.head (ha : a.Valid) : a.name.head? ≠ some 45 := by
  have hnames : ∀ e ∈ actions, e.1.head? ≠ some 45 := by decide
  obtain ⟨before, behind, heq, -⟩ := List.lookup_eq_some_iff.mp ha
  refine hnames (a.name, a.args.length) ?_
  rw [heq]
  exact List.mem_append_right _ List.mem_cons_self

theorem head_words (hvalid : ∀ a ∈ acts, a.Valid) :
    ∀ w ∈ (acts.flatMap Action.words).head?, w.head? ≠ some 45 := by
  cases acts with
  | nil => exact fun w hw => nomatch hw
  | cons a acts =>
      intro w hw
      obtain rfl : a.name = w := Option.some.inj hw
      exact (hvalid a List.mem_cons_self).head

/-! ### The whole line -/

/-- On the average, a word of an action takes two bytes: its name has one for each argument. -/
theorem Action.Valid.two_mul_length_le (ha : a.Valid) :
    2 * a.words.length ≤ (joinArgs a.words).length := by
  have hnames : ∀ e ∈ actions, e.2 + 1 ≤ e.1.length := by decide
  obtain ⟨before, behind, heq, -⟩ := List.lookup_eq_some_iff.mp ha
  have hname : a.args.length + 1 ≤ a.name.length := by
    refine hnames (a.name, a.args.length) ?_
    rw [heq]
    exact List.mem_append_right _ List.mem_cons_self
  have hargs := length_le_joinArgs a.args
  rw [Action.words, joinArgs_cons, List.length_append, List.length_append, List.length_cons,
    List.length_singleton]
  omega

/-- So a line that fits has no more words than `argv`, even if arguments are empty. -/
theorem commandLine_length_le (hacts : ∀ a ∈ acts, a.Valid) :
    2 * (commandLine settings acts).length ≤ (joinArgs (commandLine settings acts)).length := by
  have hsettings : 2 * (settings.map Setting.word).length ≤
      (joinArgs (settings.map Setting.word)).length := by
    refine two_mul_length_le fun w hw => ?_
    obtain ⟨s, -, rfl⟩ := List.mem_map.mp hw
    intro hnil
    have hhead := head_word s
    rw [hnil] at hhead
    exact absurd hhead (by simp)
  have hactions : 2 * (acts.flatMap Action.words).length ≤
      (joinArgs (acts.flatMap Action.words)).length := by
    induction acts with
    | nil => exact Nat.le_refl 0
    | cons a acts ih =>
        have ha := (hacts a List.mem_cons_self).two_mul_length_le
        have hrest := ih fun b hb => hacts b (List.mem_cons_of_mem _ hb)
        rw [List.flatMap_cons, joinArgs_append, List.length_append, List.length_append]
        omega
  unfold commandLine
  rw [joinArgs_append, List.length_append, List.length_append]
  omega

theorem runCommandLine_eq (hsettings : ∀ s ∈ settings, s.Valid) (hacts : ∀ a ∈ acts, a.Valid) :
    runCommandLine o clock (commandLine settings acts) =
      (choosePolicy (told o settings) >>= fun o =>
        .ok ({ o with rng := randomInit clock }, acts, none)) := by
  unfold runCommandLine parseOptions commandLine
  rw [optionLoop_settings hsettings (head_words hacts), ok_bind]
  show (choosePolicy (told o settings) >>= _) >>= _ = _
  cases choosePolicy (told o settings) with
  | error => rfl
  | ok o =>
      rw [ok_bind, ok_bind, ok_bind]
      dsimp only
      rw [runActions_flatMap hacts]

/-- **Booting as told.** A boot sector that is packed with settings and actions is taken as it is
meant. A later setting overrides an earlier one of its kind, the scheduler is the one that is asked
for, and every action is called, in order, with its arguments. Two schedulers stop the kernel. The
seed is that of the clock, whatever `-rs` says. -/
theorem boot_as_told {line : List UInt8} (m : Mem) (loader table : List UInt8) (o : Options)
    (clock : UInt32) (settings : List Setting) (acts : List Action)
    (hsettings : ∀ s ∈ settings, s.Valid) (hacts : ∀ a ∈ acts, a.Valid)
    (hzero : ∀ w ∈ commandLine settings acts, (0 : UInt8) ∉ w)
    (hline : makeKernelCommandLine (commandLine settings acts) = some line) :
    ∃ argv words, readCommandLine (loadMbr m (makeMbr loader line table)) = .ok argv ∧
      List.Forall₂ (IsString (loadMbr m (makeMbr loader line table))) argv words ∧
      (∀ p, Chooses settings p → runCommandLine o clock words =
        .ok ({ told o settings with activeSchedPolicy := p, rng := randomInit clock }, acts,
          none)) ∧
      (∀ p q, p ≠ q → Setting.sched p ∈ settings → Setting.sched q ∈ settings →
        runCommandLine o clock words = .error .tooManySchedulers) := by
  have hfew : (commandLine settings acts).length ≤ 64 := by
    have hlength := @commandLine_length_le settings acts hacts
    have hfits := (makeKernelCommandLine_eq_some hline).1
    omega
  have hspec := readCommandLine_spec m loader table hzero hline
  rw [if_pos hfew] at hspec
  obtain ⟨argv, hread, hall⟩ := hspec
  refine ⟨argv, commandLine settings acts, hread, hall, fun p hp => ?_, fun p q hne hp hq => ?_⟩
  · rw [runCommandLine_eq hsettings hacts, choosePolicy_chooses hp, ok_bind]
  · rw [runCommandLine_eq hsettings hacts, choosePolicy_two hne hp hq]
    rfl

/-- `-q -sched=prio run 'echo x'`. -/
theorem boot_as_told_run : ∃ line argv words,
    makeKernelCommandLine [text "-q", text "-sched=prio", text "run", text "echo x"] = some line ∧
    readCommandLine (loadMbr (fun _ => 0) (makeMbr [] line [])) = .ok argv ∧
    List.Forall₂ (IsString (loadMbr (fun _ => 0) (makeMbr [] line []))) argv words ∧
    runCommandLine initialOptions 0 words =
      .ok ({ told initialOptions [.powerOff, .sched .prio] with
              activeSchedPolicy := .prio, rng := randomInit 0 },
        [⟨text "run", [text "echo x"]⟩], none) := by
  have hline : commandLine [.powerOff, .sched .prio] [⟨text "run", [text "echo x"]⟩] =
      [text "-q", text "-sched=prio", text "run", text "echo x"] := by decide
  have hpacked : makeKernelCommandLine
      (commandLine [.powerOff, .sched .prio] [⟨text "run", [text "echo x"]⟩]) =
        some (packV 4 ++ packA 128
          (joinArgs [text "-q", text "-sched=prio", text "run", text "echo x"])) := by
    rw [hline]
    rfl
  obtain ⟨argv, words, hread, hall, hrun, -⟩ := boot_as_told (fun _ => 0) [] [] initialOptions 0
    [.powerOff, .sched .prio] [⟨text "run", [text "echo x"]⟩]
    (by simp only [List.forall_mem_cons, Setting.Valid, Setting.parts]; decide)
    (by simp only [List.forall_mem_cons, Action.Valid]; decide)
    (by rw [hline]; decide) hpacked
  exact ⟨_, argv, words, rfl, hread, hall, hrun .prio (.asked (by simp) (by simp))⟩

/-- What is called is the line up to where the kernel stops: it stops at the first word that
is no action, at an action whose arguments are not all there, or else at the end. From left to
right the calls are split off the line one after the other (`runActions_calls`), from right to
left a line that is so split is run (`runActions_append`). -/
theorem actions_in_order (argv : List (List UInt8)) (calls : List Action) (stop : Option Stop) :
    runActions argv = (calls, stop) ↔
      ∃ rest, argv = calls.flatMap Action.words ++ rest ∧ (∀ a ∈ calls, a.Valid) ∧
        StopsAt rest stop := by
  constructor
  · intro h
    have hcalls := runActions_calls argv
    rwa [h] at hcalls
  · rintro ⟨rest, rfl, hvalid, hstop⟩
    exact runActions_append hvalid hstop

end OsTools.Boot

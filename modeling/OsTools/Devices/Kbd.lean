import OsTools.Devices.Intq
import OsTools.Lib.Run
/-!
# OsTools.Devices.Kbd

The keyboard of `devices/kbd.c`: its interrupt handler turns the scancodes of key presses and
releases into characters and puts them into the input buffer, from which a thread reads.

Two results are about any sequence of scancodes: what the state variables of the driver are
after it, and a round trip: every text can be typed.

## Proof shape

The state of the modifiers is a function of the scancodes that have come so far, which
`keyboard_history` states for all sequences: a modifier is down if its last scancode was a
press. The text is by induction on the strokes; a stroke is the scancodes of the shift key,
if it needs one, around the press and the release of the key. Between strokes no modifier is
down, so that each stroke starts from the same state and adds one character to the buffer,
if there is room at the press.
-/

namespace OsTools.Devices

/-- The state variables of the shift keys. -/
inductive ShiftKey
  | leftShift
  | rightShift
  | leftAlt
  | rightAlt
  | leftCtrl
  | rightCtrl
  deriving DecidableEq

/-- The variables of kbd.c, and the input buffer. -/
structure Kbd where
  held : ShiftKey → Bool
  capsLock : Bool
  keyCnt : Nat
  input : IntqBuffer

namespace Kbd

/-! ### The keymaps -/

/-- `struct keymap`; the list ends where the array has its null entry. -/
abbrev Keymap := List (Nat × List UInt8)

def chars (s : String) : List UInt8 := s.toList.map fun c => UInt8.ofNat c.toNat

def invariantKeymap : Keymap :=
  [(0x01, [0o33]), (0x0e, [8]), (0x0f, chars "\tQWERTYUIOP"), (0x1c, [13]),
    (0x1e, chars "ASDFGHJKL"), (0x2c, chars "ZXCVBNM"), (0x37, chars "*"), (0x39, chars " "),
    (0x53, [0o177])]

def unshiftedKeymap : Keymap :=
  [(0x02, chars "1234567890-="), (0x1a, chars "[]"), (0x27, chars ";'`"), (0x2b, chars "\\"),
    (0x33, chars ",./")]

def shiftedKeymap : Keymap :=
  [(0x02, chars "!@#$%^&*()_+"), (0x1a, chars "{}"), (0x27, chars ":\"~"), (0x2b, chars "|"),
    (0x33, chars "<>?")]

/-- `shift_keys`. -/
def shiftKeys : List (Nat × ShiftKey) :=
  [(0x2a, .leftShift), (0x36, .rightShift), (0x38, .leftAlt), (0xe038, .rightAlt),
    (0x1d, .leftCtrl), (0xe01d, .rightCtrl)]

/-- `map_key`. -/
def mapKey (k : Keymap) (scancode : Nat) : Option UInt8 :=
  k.findSome? fun (first, chars) =>
    if first ≤ scancode ∧ scancode < first + chars.length then chars[scancode - first]? else none

def tolower (c : UInt8) : UInt8 := if 65 ≤ c ∧ c ≤ 90 then c + 32 else c

/-! ### The interrupt handler -/

def shift (held : ShiftKey → Bool) : Bool := held .leftShift || held .rightShift

def alt (held : ShiftKey → Bool) : Bool := held .leftAlt || held .rightAlt

def ctrl (held : ShiftKey → Bool) : Bool := held .leftCtrl || held .rightCtrl

/-- The scancode, from the first byte that the keyboard delivers and the one after it. -/
def readCode (data second : UInt8) : Nat :=
  if data = 0xe0 then (data.toNat <<< 8) ||| second.toNat else data.toNat

/-- Bit 0x80 distinguishes key press from key release. -/
def isRelease (code : Nat) : Bool := code &&& 0x80 ≠ 0

/-- The key without that bit. -/
def keyOf (code : Nat) : Nat := code &&& (0xffffffff - 0x80)

/-- The character of an ordinary key. -/
def ordinary (held : ShiftKey → Bool) (key : Nat) : Option UInt8 :=
  (mapKey invariantKeymap key).or <|
    mapKey (if shift held then shiftedKeymap else unshiftedKeymap) key

/-- What Ctrl, Shift and Alt make of it. -/
def modified (held : ShiftKey → Bool) (capsLock : Bool) (c : UInt8) : UInt8 :=
  let c :=
    if ctrl held ∧ 0x40 ≤ c ∧ c < 0x60 then c - 0x40
    else if shift held = capsLock then tolower c
    else c
  if alt held then c + 0x80 else c

/-- Appends to the keyboard buffer. -/
def inputKey (s : Kbd) (c : UInt8) : Kbd :=
  if s.input.full then s
  else { s with keyCnt := s.keyCnt + 1, input := (s.input.access (.putc c)).2 }

/-- The scan of `shift_keys`. -/
def shiftKey (held : ShiftKey → Bool) (key : Nat) (release : Bool) : ShiftKey → Bool :=
  match shiftKeys.find? (·.1 = key) with
  | none => held
  | some (_, stateVar) => Function.update held stateVar (!release)

/-- `keyboard_interrupt`; `none` where it reboots. -/
def keyboardInterrupt (s : Kbd) (data second : UInt8) : Option Kbd :=
  let code := readCode data second
  let release := isRelease code
  let key := keyOf code
  if key = 0x3a then some (if release then s else { s with capsLock := !s.capsLock })
  else
    match ordinary s.held key with
    | some c =>
        if release then some s
        else if c = 0o177 ∧ ctrl s.held ∧ alt s.held then none
        else some (s.inputKey (modified s.held s.capsLock c))
    | none => some { s with held := shiftKey s.held key release }

end Kbd

/-- An interrupt with what the keyboard delivers, or a thread that reads a key. -/
inductive KbdAct
  | interrupt (data second : UInt8)
  | getc
  deriving DecidableEq

namespace Kbd

/-- One step; a thread reads where there is a key. -/
def step (s : Kbd) : KbdAct → Option Kbd
  | .interrupt data second => s.keyboardInterrupt data second
  | .getc => if s.input.empty then none else some { s with input := (s.input.access .getc).2 }

/-- The state in which the driver starts. -/
def powerOn : Kbd where
  held _ := false
  capsLock := false
  keyCnt := 0
  input := ⟨fun _ => 0, 0, 0, [], []⟩

/-- The scancodes of the interrupts. -/
def scancodes (acts : List KbdAct) : List Nat :=
  acts.filterMap fun
    | .interrupt data second => some (readCode data second)
    | .getc => none

/-- An ordinary key is pressed: neither a shift key nor Caps Lock. -/
def isPress : KbdAct → Bool
  | .interrupt data second =>
      let code := readCode data second
      !isRelease code && keyOf code ≠ 0x3a && shiftKeys.all (·.1 ≠ keyOf code)
  | .getc => false

/-- What the handler does with a scancode, and the character it has for the buffer. -/
def outcome (held : ShiftKey → Bool) (capsLock : Bool) (code : Nat) :
    Option ((ShiftKey → Bool) × Bool × List UInt8) :=
  if keyOf code = 0x3a then some (held, if isRelease code then capsLock else !capsLock, [])
  else
    match ordinary held (keyOf code) with
    | some c =>
        if isRelease code then some (held, capsLock, [])
        else if c = 0o177 ∧ ctrl held ∧ alt held then none
        else some (held, capsLock, [modified held capsLock c])
    | none => some (shiftKey held (keyOf code) (isRelease code), capsLock, [])

/-- The same for a sequence of scancodes. -/
def emit (held : ShiftKey → Bool) (capsLock : Bool) :
    List Nat → Option ((ShiftKey → Bool) × Bool × List UInt8)
  | [] => some (held, capsLock, [])
  | code :: codes =>
      (outcome held capsLock code).bind fun o =>
        (emit o.1 o.2.1 codes).map fun o' => (o'.1, o'.2.1, o.2.2 ++ o'.2.2)

/-! ### What has been pressed -/

variable {s s' : Kbd} {held held' : ShiftKey → Bool} {capsLock capsLock' : Bool}
  {code key : Nat} {codes : List Nat} {cs : List UInt8}

/-- The scancode of a shift key. -/
def codeOf : ShiftKey → Nat
  | .leftShift => 0x2a
  | .rightShift => 0x36
  | .leftAlt => 0x38
  | .rightAlt => 0xe038
  | .leftCtrl => 0x1d
  | .rightCtrl => 0xe01d

/-- Whether the key is down: what was last heard of it is that it has been pressed. -/
def down (before : Bool) (key : Nat) (codes : List Nat) : Bool :=
  match codes.reverse.find? (keyOf · = key) with
  | some code => !isRelease code
  | none => before

/-- How often a key has been pressed. -/
def presses (key : Nat) (codes : List Nat) : Nat :=
  codes.countP fun code => keyOf code = key && !isRelease code

theorem shiftKeys_find (k : ShiftKey) :
    shiftKeys.find? (·.1 = codeOf k) = some (codeOf k, k) := by
  cases k <;> rfl

theorem codeOf_injective : Function.Injective codeOf := by
  intro k k' h
  have hk := shiftKeys_find k
  rw [h, shiftKeys_find k'] at hk
  exact (Prod.mk.inj (Option.some.inj hk)).2.symm

theorem shiftKey_eq (held : ShiftKey → Bool) (key : Nat) (release : Bool) (k : ShiftKey) :
    shiftKey held key release k = if key = codeOf k then !release else held k := by
  unfold shiftKey
  by_cases hkey : ∃ k', key = codeOf k'
  · obtain ⟨k', rfl⟩ := hkey
    rw [shiftKeys_find k']
    by_cases hk : k = k'
    · rw [hk, if_pos rfl]
      exact Function.update_self ..
    · rw [if_neg fun h => hk (codeOf_injective h.symm)]
      exact Function.update_of_ne hk ..
  · have hnone : shiftKeys.find? (·.1 = key) = none := by
      rw [List.find?_eq_none]
      intro e he heq
      have hcode : ∀ e ∈ shiftKeys, e.1 = codeOf e.2 := by decide
      exact hkey ⟨e.2, by rw [← hcode e he, of_decide_eq_true heq]⟩
    rw [hnone, if_neg fun h => hkey ⟨k, h⟩]

theorem mapKey_lt {k : Keymap} {b : Nat} (hk : ∀ e ∈ k, e.1 + e.2.length ≤ b) {c : UInt8}
    (h : mapKey k key = some c) : key < b := by
  obtain ⟨e, he, hc⟩ := List.exists_of_findSome?_eq_some h
  by_cases hin : e.1 ≤ key ∧ key < e.1 + e.2.length
  · exact Nat.lt_of_lt_of_le hin.2 (hk e he)
  · dsimp only at hc
    rw [if_neg hin] at hc
    simp at hc

theorem ordinary_lt {c : UInt8} (h : ordinary held key = some c) : key < 0x54 := by
  unfold ordinary at h
  rcases Option.or_eq_some_iff.1 h with h | ⟨-, h⟩
  · exact mapKey_lt (by decide) h
  · cases hshift : shift held
    · rw [hshift] at h
      exact mapKey_lt (k := unshiftedKeymap) (by decide) h
    · rw [hshift] at h
      exact mapKey_lt (k := shiftedKeymap) (by decide) h

/-- The shift keys are not ordinary ones, nor is Caps Lock. -/
theorem ordinary_codeOf (held : ShiftKey → Bool) (k : ShiftKey) :
    ordinary held (codeOf k) = none ∧ codeOf k ≠ 0x3a := by
  unfold ordinary
  cases shift held <;> cases k <;> decide

/-- The character of Delete is that of no other key. -/
theorem ordinary_delete (held : ShiftKey → Bool) (key : Nat) :
    ordinary held key = some 0o177 ↔ key = 0x53 := by
  constructor
  · intro h
    have hlt := ordinary_lt h
    unfold ordinary at h
    have htable : ∀ b : Bool, ∀ key < 0x54, ((mapKey invariantKeymap key).or <|
        mapKey (if b then shiftedKeymap else unshiftedKeymap) key) = some 0o177 →
          key = 0x53 := by
      decide +kernel
    exact htable (shift held) key hlt h
  · rintro rfl
    unfold ordinary
    cases shift held <;> decide

/-- A scancode changes the state variable of its own key only. -/
theorem outcome_held (h : outcome held capsLock code = some (held', capsLock', cs))
    (k : ShiftKey) :
    held' k = if keyOf code = codeOf k then !isRelease code else held k := by
  have hk := ordinary_codeOf held k
  unfold outcome at h
  by_cases hcaps : keyOf code = 0x3a
  · rw [if_pos hcaps] at h
    obtain ⟨rfl, -⟩ := Prod.mk.inj (Option.some.inj h)
    rw [if_neg (by rw [hcaps]; exact Ne.symm hk.2)]
  · rw [if_neg hcaps] at h
    cases hord : ordinary held (keyOf code) with
    | none =>
        rw [hord] at h
        obtain ⟨rfl, -⟩ := Prod.mk.inj (Option.some.inj h)
        exact shiftKey_eq held _ _ k
    | some c =>
        have hne : keyOf code ≠ codeOf k := by
          intro heq
          rw [heq, hk.1] at hord
          simp at hord
        rw [hord] at h
        rw [if_neg hne]
        dsimp only at h
        split_ifs at h with hrelease hreboot
        · obtain ⟨rfl, -⟩ := Prod.mk.inj (Option.some.inj h)
          rfl
        · obtain ⟨rfl, -⟩ := Prod.mk.inj (Option.some.inj h)
          rfl

/-- A scancode changes Caps Lock where its key is pressed. -/
theorem outcome_capsLock (h : outcome held capsLock code = some (held', capsLock', cs)) :
    capsLock' = if keyOf code = 0x3a ∧ isRelease code = false then !capsLock else capsLock := by
  unfold outcome at h
  by_cases hcaps : keyOf code = 0x3a
  · rw [if_pos hcaps] at h
    obtain ⟨-, rfl, -⟩ := by simpa using h
    cases isRelease code <;> simp [hcaps]
  · rw [if_neg hcaps] at h
    rw [if_neg (by simp [hcaps])]
    cases hord : ordinary held (keyOf code) with
    | none =>
        rw [hord] at h
        obtain ⟨-, rfl, -⟩ := by simpa using h
        rfl
    | some c =>
        rw [hord] at h
        dsimp only at h
        split_ifs at h with hrelease hreboot
        · obtain ⟨-, rfl, -⟩ := by simpa using h
          rfl
        · obtain ⟨-, rfl, -⟩ := by simpa using h
          rfl

theorem down_cons (before : Bool) (key code : Nat) (codes : List Nat) :
    down before key (code :: codes) =
      down (if keyOf code = key then !isRelease code else before) key codes := by
  unfold down
  rw [List.reverse_cons, List.find?_append]
  cases codes.reverse.find? (keyOf · = key) with
  | some code' => rfl
  | none =>
      by_cases hkey : keyOf code = key
      · simp [hkey]
      · simp [hkey]

/-- What a run of scancodes makes of the modifiers, in terms of the scancodes alone. By
induction on them, from the front, since the last one for a key decides. -/
theorem emit_history (h : emit held capsLock codes = some (held', capsLock', cs)) :
    (∀ k, held' k = down (held k) (codeOf k) codes) ∧
      capsLock' = (capsLock ^^ presses 0x3a codes % 2 = 1) := by
  induction codes generalizing held capsLock cs with
  | nil =>
      obtain ⟨rfl, rfl, -⟩ := by simpa [emit] using h
      exact ⟨fun k => rfl, by simp [presses]⟩
  | cons code codes ih =>
      rw [emit] at h
      obtain ⟨⟨held₁, capsLock₁, cs₁⟩, ho, h⟩ := Option.bind_eq_some_iff.1 h
      obtain ⟨⟨held₂, capsLock₂, cs₂⟩, he, h⟩ := Option.map_eq_some_iff.1 h
      obtain ⟨rfl, rfl, -⟩ := by simpa using h
      obtain ⟨hheld, hcaps⟩ := ih he
      dsimp only at hheld hcaps
      refine ⟨fun k => ?_, ?_⟩
      · rw [hheld k, down_cons, outcome_held ho k]
      · rw [hcaps, outcome_capsLock ho, presses, presses, List.countP_cons]
        by_cases hpress : keyOf code = 0x3a ∧ isRelease code = false
        · rw [if_pos hpress, if_pos (by simp [hpress.1, hpress.2])]
          rcases Nat.mod_two_eq_zero_or_one
            (codes.countP fun code => keyOf code = 0x3a && !isRelease code) with hm | hm <;>
            simp [hm, Nat.add_mod]
        · rw [if_neg hpress, if_neg (by simpa using hpress)]
          rfl

theorem outcome_reboots : outcome held capsLock code = none ↔
    keyOf code = 0x53 ∧ isRelease code = false ∧ ctrl held = true ∧ alt held = true := by
  unfold outcome
  by_cases hkey : keyOf code = 0x53
  · rw [hkey, if_neg (by decide), (ordinary_delete held 0x53).2 rfl]
    cases isRelease code <;> simp
  · refine iff_of_false (fun hnone => ?_) fun h => hkey h.1
    by_cases hcaps : keyOf code = 0x3a
    · rw [if_pos hcaps] at hnone
      simp at hnone
    · rw [if_neg hcaps] at hnone
      cases hord : ordinary held (keyOf code) with
      | none =>
          rw [hord] at hnone
          simp at hnone
      | some c =>
          rw [hord] at hnone
          dsimp only at hnone
          split_ifs at hnone with hrelease hreboot
          rw [hreboot.1] at hord
          exact hkey ((ordinary_delete _ _).1 hord)

/-- The handler, by the outcome of the scancode. -/
theorem keyboardInterrupt_eq (s : Kbd) (data second : UInt8) :
    s.keyboardInterrupt data second =
      (outcome s.held s.capsLock (readCode data second)).map fun o =>
        o.2.2.foldl inputKey { s with held := o.1, capsLock := o.2.1 } := by
  unfold keyboardInterrupt outcome
  dsimp only
  by_cases hcaps : keyOf (readCode data second) = 0x3a
  · rw [if_pos hcaps, if_pos hcaps]
    cases isRelease (readCode data second) <;> rfl
  · rw [if_neg hcaps, if_neg hcaps]
    cases ordinary s.held (keyOf (readCode data second)) with
    | none => rfl
    | some c =>
        dsimp only
        split_ifs <;> rfl

theorem foldl_inputKey_held (s : Kbd) (cs : List UInt8) :
    (cs.foldl inputKey s).held = s.held ∧ (cs.foldl inputKey s).capsLock = s.capsLock := by
  induction cs generalizing s with
  | nil => exact ⟨rfl, rfl⟩
  | cons c cs ih =>
      obtain ⟨hheld, hcaps⟩ := ih (s.inputKey c)
      rw [List.foldl_cons, hheld, hcaps]
      unfold inputKey
      split <;> exact ⟨rfl, rfl⟩

/-- Over a run, the state variables depend on the scancodes alone. -/
theorem run_emit {acts : List KbdAct} (h : Run.final step s acts = some s') :
    ∃ cs, emit s.held s.capsLock (scancodes acts) = some (s'.held, s'.capsLock, cs) := by
  induction acts generalizing s with
  | nil =>
      obtain rfl := Option.some.inj h
      exact ⟨[], rfl⟩
  | cons a acts ih =>
      rw [Run.final] at h
      cases hstep : step s a with
      | none =>
          rw [hstep] at h
          simp at h
      | some s₁ =>
          rw [hstep] at h
          obtain ⟨cs, hcs⟩ := ih h
          cases a with
          | getc =>
              rw [step] at hstep
              split_ifs at hstep
              obtain rfl := Option.some.inj hstep
              exact ⟨cs, hcs⟩
          | interrupt data second =>
              rw [step, keyboardInterrupt_eq] at hstep
              obtain ⟨⟨held₁, capsLock₁, cs₁⟩, ho, rfl⟩ := Option.map_eq_some_iff.1 hstep
              obtain ⟨hheld, hcaps⟩ := foldl_inputKey_held
                { s with held := held₁, capsLock := capsLock₁ } cs₁
              rw [hheld, hcaps] at hcs
              refine ⟨cs₁ ++ cs, ?_⟩
              show emit _ _ (readCode data second :: scancodes acts) = _
              rw [emit, ho, Option.bind_some, hcs]
              rfl

/-- **The driver's state.** After any run a shift key counts as held just when its last scancode
is that of a press, Caps Lock is on after an odd number of presses, and the next interrupt
reboots the machine just when it is that of pressing Delete with a Ctrl and an Alt key held. -/
theorem keyboard_history {acts : List KbdAct} (h : Run.final step s acts = some s') :
    (∀ k, s'.held k = down (s.held k) (codeOf k) (scancodes acts)) ∧
      s'.capsLock = (s.capsLock ^^ presses 0x3a (scancodes acts) % 2 = 1) ∧
      ∀ data second, s'.keyboardInterrupt data second = none ↔
        keyOf (readCode data second) = 0x53 ∧ isRelease (readCode data second) = false ∧
          (∃ k ∈ [ShiftKey.leftCtrl, .rightCtrl],
            down (s.held k) (codeOf k) (scancodes acts) = true) ∧
          ∃ k ∈ [ShiftKey.leftAlt, .rightAlt],
            down (s.held k) (codeOf k) (scancodes acts) = true := by
  obtain ⟨cs, hemit⟩ := run_emit h
  obtain ⟨hheld, hcaps⟩ := emit_history hemit
  refine ⟨hheld, hcaps, fun data second => ?_⟩
  rw [keyboardInterrupt_eq, Option.map_eq_none_iff, outcome_reboots]
  simp only [← hheld, ctrl, alt, Bool.or_eq_true, List.mem_cons, List.not_mem_nil, or_false,
    exists_eq_or_imp, exists_eq_left]

/-- Shift and H, pressed and released; a thread reads the letter. -/
def sampleActs : List KbdAct :=
  [.interrupt 0x2a 0, .interrupt 0x23 0, .interrupt 0xa3 0, .getc, .interrupt 0xaa 0]

theorem keyboard_history_sample : ∃ s', Run.final step powerOn sampleActs = some s' ∧
    (∀ k, s'.held k = down false (codeOf k) (scancodes sampleActs)) ∧
      s'.capsLock = (false ^^ presses 0x3a (scancodes sampleActs) % 2 = 1) ∧
      ∀ data second, s'.keyboardInterrupt data second = none ↔
        keyOf (readCode data second) = 0x53 ∧ isRelease (readCode data second) = false ∧
          (∃ k ∈ [ShiftKey.leftCtrl, .rightCtrl],
            down false (codeOf k) (scancodes sampleActs) = true) ∧
          ∃ k ∈ [ShiftKey.leftAlt, .rightAlt],
            down false (codeOf k) (scancodes sampleActs) = true := by
  have hrun : (Run.final step powerOn sampleActs).isSome = true := by decide
  obtain ⟨s', hs'⟩ := Option.isSome_iff_exists.1 hrun
  exact ⟨s', hs', keyboard_history hs'⟩

/-! ### Typing -/

/-- The scancode that has a character in a keymap. -/
def codeIn (k : Keymap) (c : UInt8) : Option Nat :=
  k.findSome? fun (first, chars) => (chars.idxOf? c).map (first + ·)

/-- A key, and the shift keys to hold while it is pressed. -/
structure Stroke where
  code : UInt8
  shift : Bool
  ctrl : Bool
  alt : Bool

/-- How to type a byte: Alt has the high bit, Ctrl the control characters. -/
def stroke (capsLock : Bool) (b : UInt8) : Stroke :=
  let alt := decide (0x80 ≤ b)
  let c := b &&& 0x7f
  let ctrl := decide (c < 0x20)
  let c := if ctrl then c + 0x40 else c
  let lower := decide (97 ≤ c ∧ c ≤ 122)
  let upper := decide (65 ≤ c ∧ c ≤ 90)
  let c := if lower then c - 32 else c
  match codeIn invariantKeymap c with
  | some code =>
      ⟨UInt8.ofNat code, if lower then capsLock else upper && !ctrl && !capsLock, ctrl, alt⟩
  | none =>
      match codeIn unshiftedKeymap c with
      | some code => ⟨UInt8.ofNat code, false, ctrl, alt⟩
      | none => ⟨UInt8.ofNat ((codeIn shiftedKeymap c).getD 0), true, ctrl, alt⟩

namespace Stroke

/-- The shift keys that are pressed for it. -/
def shiftKeys (k : Stroke) : List UInt8 :=
  (if k.shift then [0x2a] else []) ++ (if k.ctrl then [0x1d] else []) ++
    if k.alt then [0x38] else []

/-- The bytes that the keyboard delivers for it. -/
def scan (k : Stroke) : List UInt8 :=
  k.shiftKeys ++ [k.code, k.code + 0x80] ++ k.shiftKeys.map (· + 0x80)

/-- The shift keys that are held while its key is pressed. -/
def holding (k : Stroke) : ShiftKey → Bool
  | .leftShift => k.shift
  | .leftCtrl => k.ctrl
  | .leftAlt => k.alt
  | _ => false

end Stroke

/-- The scancodes of typing a text. -/
def typing (capsLock : Bool) (text : List UInt8) : List Nat :=
  text.flatMap fun b => (stroke capsLock b).scan.map (readCode · 0)

/-- The key of a stroke is an ordinary one, and it is for the byte. -/
theorem stroke_types (capsLock : Bool) (b : UInt8) (k : Stroke) (hk : k = stroke capsLock b) :
    (ordinary k.holding (keyOf (readCode k.code 0))).any (fun c =>
        ¬ (c = 0o177 ∧ ctrl k.holding ∧ alt k.holding) ∧
          modified k.holding capsLock c = b) = true ∧
      keyOf (readCode k.code 0) ≠ 0x3a ∧ isRelease (readCode k.code 0) = false ∧
      keyOf (readCode (k.code + 0x80) 0) = keyOf (readCode k.code 0) ∧
      isRelease (readCode (k.code + 0x80) 0) = true := by
  have htable : ∀ capsLock : Bool, ∀ n < 256,
      let b := UInt8.ofNat n
      let k := stroke capsLock b
      (ordinary k.holding (keyOf (readCode k.code 0))).any (fun c =>
          ¬ (c = 0o177 ∧ ctrl k.holding ∧ alt k.holding) ∧
            modified k.holding capsLock c = b) = true ∧
        keyOf (readCode k.code 0) ≠ 0x3a ∧ isRelease (readCode k.code 0) = false ∧
        keyOf (readCode (k.code + 0x80) 0) = keyOf (readCode k.code 0) ∧
        isRelease (readCode (k.code + 0x80) 0) = true := by
    decide +kernel
  have hb := htable capsLock b.toNat b.toNat_lt
  rw [UInt8.ofNat_toNat] at hb
  rw [hk]
  exact hb

/-- Pressing and releasing the key puts the byte into the buffer. -/
theorem outcome_stroke (capsLock : Bool) (b : UInt8) :
    let k := stroke capsLock b
    outcome k.holding capsLock (readCode k.code 0) = some (k.holding, capsLock, [b]) ∧
      outcome k.holding capsLock (readCode (k.code + 0x80) 0) =
        some (k.holding, capsLock, []) := by
  intro k
  obtain ⟨htypes, hcaps, hpress, hkey, hrelease⟩ := stroke_types capsLock b k rfl
  obtain ⟨c, hord, hc⟩ := (Option.any_eq_true ..).1 htypes
  obtain ⟨hreboot, hmod⟩ := of_decide_eq_true hc
  constructor
  · unfold outcome
    rw [if_neg hcaps, hord, hpress]
    dsimp only
    rw [if_neg Bool.false_ne_true, if_neg hreboot, hmod]
  · unfold outcome
    rw [hkey, if_neg hcaps, hord, hrelease]
    rfl

theorem emit_append (codes₁ codes₂ : List Nat) :
    emit held capsLock (codes₁ ++ codes₂) =
      (emit held capsLock codes₁).bind fun o =>
        (emit o.1 o.2.1 codes₂).map fun o' => (o'.1, o'.2.1, o.2.2 ++ o'.2.2) := by
  induction codes₁ generalizing held capsLock with
  | nil => simp [emit]
  | cons code codes ih =>
      rw [List.cons_append, emit, emit]
      simp only [ih]
      cases outcome held capsLock code with
      | none => rfl
      | some o =>
          simp only [Option.bind_some]
          cases emit o.1 o.2.1 codes with
          | none => rfl
          | some o' =>
              simp only [Option.map_some, Option.bind_some]
              cases emit o'.1 o'.2.1 codes₂ <;> simp

theorem emit_trans {held₁ held₂ : ShiftKey → Bool} {capsLock₁ capsLock₂ : Bool}
    {codes₁ codes₂ : List Nat} {cs₁ cs₂ : List UInt8}
    (h₁ : emit held capsLock codes₁ = some (held₁, capsLock₁, cs₁))
    (h₂ : emit held₁ capsLock₁ codes₂ = some (held₂, capsLock₂, cs₂)) :
    emit held capsLock (codes₁ ++ codes₂) = some (held₂, capsLock₂, cs₁ ++ cs₂) := by
  rw [emit_append, h₁, Option.bind_some, h₂, Option.map_some]

/-- A scancode of a shift key that may be left out. -/
theorem emit_shiftKey (held : ShiftKey → Bool) (capsLock : Bool) (k : ShiftKey) (code : UInt8)
    (hkey : keyOf (readCode code 0) = codeOf k) (b : Bool) :
    emit held capsLock ((if b then [code] else []).map (readCode · 0)) =
      some (if b then Function.update held k (!isRelease (readCode code 0)) else held,
        capsLock, []) := by
  cases b with
  | false => rfl
  | true =>
      have ho : outcome held capsLock (readCode code 0) =
          some (Function.update held k (!isRelease (readCode code 0)), capsLock, []) := by
        obtain ⟨hord, hne⟩ := ordinary_codeOf held k
        unfold outcome shiftKey
        rw [hkey, if_neg hne, hord, shiftKeys_find k]
      rw [if_pos rfl, if_pos rfl, List.map_cons, List.map_nil, emit, ho]
      rfl

/-- The shift keys of a stroke are pressed, and afterwards released. -/
theorem emit_shiftKeys (k : Stroke) (capsLock : Bool) :
    emit (fun _ => false) capsLock (k.shiftKeys.map (readCode · 0)) =
        some (k.holding, capsLock, []) ∧
      emit k.holding capsLock ((k.shiftKeys.map (· + 0x80)).map (readCode · 0)) =
        some (fun _ => false, capsLock, []) := by
  have hmap : ∀ b : Bool, ∀ c : UInt8, (if b then [c] else []).map (· + 0x80) =
      if b then [c + 0x80] else [] := by
    intro b c
    cases b <;> rfl
  have hpress := emit_trans (emit_trans
    (emit_shiftKey (fun _ => false) capsLock .leftShift 0x2a (by decide) k.shift)
    (emit_shiftKey _ _ .leftCtrl 0x1d (by decide) k.ctrl))
    (emit_shiftKey _ _ .leftAlt 0x38 (by decide) k.alt)
  have hrelease := emit_trans (emit_trans
    (emit_shiftKey k.holding capsLock .leftShift (0x2a + 0x80) (by decide) k.shift)
    (emit_shiftKey _ _ .leftCtrl (0x1d + 0x80) (by decide) k.ctrl))
    (emit_shiftKey _ _ .leftAlt (0x38 + 0x80) (by decide) k.alt)
  unfold Stroke.shiftKeys
  simp only [List.map_append, hmap] at hpress hrelease ⊢
  rw [hpress, hrelease]
  obtain ⟨code, sh, ct, al⟩ := k
  constructor
  · refine congrArg some (Prod.ext (funext fun x => ?_) rfl)
    cases x <;> cases sh <;> cases ct <;> cases al <;> rfl
  · refine congrArg some (Prod.ext (funext fun x => ?_) rfl)
    cases x <;> cases sh <;> cases ct <;> cases al <;> rfl

theorem emit_stroke (capsLock : Bool) (b : UInt8) :
    emit (fun _ => false) capsLock ((stroke capsLock b).scan.map (readCode · 0)) =
      some (fun _ => false, capsLock, [b]) := by
  obtain ⟨hpress, hrelease⟩ := outcome_stroke capsLock b
  obtain ⟨hdown, hup⟩ := emit_shiftKeys (stroke capsLock b) capsLock
  have hkey : emit (stroke capsLock b).holding capsLock
      ([(stroke capsLock b).code, (stroke capsLock b).code + 0x80].map (readCode · 0)) =
        some ((stroke capsLock b).holding, capsLock, [b]) := by
    simp only [List.map_cons, List.map_nil, emit, hpress, hrelease, Option.bind_some,
      Option.map_some, List.append_nil]
  unfold Stroke.scan
  rw [List.map_append, List.map_append]
  exact emit_trans (emit_trans hdown hkey) hup

/-- What is typed is what the driver has for the buffer. -/
theorem emit_typing (capsLock : Bool) (text : List UInt8) :
    emit (fun _ => false) capsLock (typing capsLock text) =
      some (fun _ => false, capsLock, text) := by
  induction text with
  | nil => rfl
  | cons b text ih =>
      show emit _ _ ((stroke capsLock b).scan.map (readCode · 0) ++ typing capsLock text) = _
      exact emit_trans (emit_stroke capsLock b) ih

/-! ### The buffer -/

theorem inputKey_spec (hinv : s.input.Inv) (c : UInt8) :
    ∃ accepted, accepted.Sublist [c] ∧ (s.input.full = false → accepted = [c]) ∧
      (s.inputKey c).keyCnt = s.keyCnt + accepted.length ∧
      (s.inputKey c).input.inserted = s.input.inserted ++ accepted ∧
      (s.inputKey c).input.Inv := by
  unfold inputKey
  cases hfull : s.input.full with
  | true => exact ⟨[], List.nil_sublist _, fun h => absurd h (by simp), rfl,
        (List.append_nil _).symm, hinv⟩
  | false =>
      have hmet : s.input.met (IntqOp.putc c).needs = true := by
        show (!s.input.full) = true
        rw [hfull]
        rfl
      exact ⟨[c], List.Sublist.refl _, fun _ => rfl, rfl, rfl, IntqBuffer.access_inv hinv hmet⟩

/-- A handler has at most one character. -/
theorem outcome_chars (h : outcome held capsLock code = some (held', capsLock', cs)) :
    cs = [] ∨ ∃ c, cs = [c] := by
  unfold outcome at h
  by_cases hcaps : keyOf code = 0x3a
  · rw [if_pos hcaps] at h
    obtain ⟨-, -, rfl⟩ := by simpa using h
    exact Or.inl rfl
  · rw [if_neg hcaps] at h
    cases hord : ordinary held (keyOf code) with
    | none =>
        rw [hord] at h
        obtain ⟨-, -, rfl⟩ := by simpa using h
        exact Or.inl rfl
    | some c =>
        rw [hord] at h
        dsimp only at h
        split_ifs at h with hrelease hreboot
        · obtain ⟨-, -, rfl⟩ := by simpa using h
          exact Or.inl rfl
        · obtain ⟨-, -, rfl⟩ := by simpa using h
          exact Or.inr ⟨_, rfl⟩

/-- Only the press of an ordinary key has a character. -/
theorem outcome_press {data second : UInt8} {c : UInt8}
    (h : outcome held capsLock (readCode data second) = some (held', capsLock', [c])) :
    isPress (.interrupt data second) = true := by
  unfold outcome at h
  by_cases hcaps : keyOf (readCode data second) = 0x3a
  · rw [if_pos hcaps] at h
    simp at h
  · rw [if_neg hcaps] at h
    cases hord : ordinary held (keyOf (readCode data second)) with
    | none =>
        rw [hord] at h
        simp at h
    | some c =>
        have hshift : ∀ e ∈ shiftKeys, e.1 ≠ keyOf (readCode data second) := by
          intro e he heq
          have hcode : ∀ e ∈ shiftKeys, e.1 = codeOf e.2 := by decide
          rw [← heq, hcode e he, (ordinary_codeOf held e.2).1] at hord
          simp at hord
        cases hrelease : isRelease (readCode data second) with
        | true =>
            rw [hord, hrelease] at h
            simp at h
        | false =>
            have hall : shiftKeys.all (·.1 ≠ keyOf (readCode data second)) = true :=
              List.all_eq_true.2 fun e he => decide_eq_true (hshift e he)
            simp only [isPress, hrelease, hcaps, hall, ne_eq, not_false_eq_true, decide_true,
              Bool.not_false, Bool.and_self]

/-- What one step lets into the buffer, of the characters that its scancode has. -/
theorem step_input (hinv : s.input.Inv) {a : KbdAct} (h : step s a = some s') :
    ∃ cs accepted, emit s.held s.capsLock (scancodes [a]) = some (s'.held, s'.capsLock, cs) ∧
      accepted.Sublist cs ∧ ((isPress a = true → s.input.full = false) → accepted = cs) ∧
      s'.keyCnt = s.keyCnt + accepted.length ∧
      s'.input.inserted = s.input.inserted ++ accepted ∧ s'.input.Inv := by
  cases a with
  | getc =>
      rw [step] at h
      cases hempty : s.input.empty with
      | true => simp [hempty] at h
      | false =>
          rw [hempty, if_neg Bool.false_ne_true] at h
          obtain rfl := Option.some.inj h
          have hmet : s.input.met IntqOp.getc.needs = true := by
            show (!s.input.empty) = true
            rw [hempty]
            rfl
          exact ⟨[], [], rfl, List.Sublist.refl _, fun _ => rfl, rfl,
            (List.append_nil _).symm, IntqBuffer.access_inv hinv hmet⟩
  | interrupt data second =>
      rw [step, keyboardInterrupt_eq] at h
      obtain ⟨⟨held₁, capsLock₁, cs⟩, ho, rfl⟩ := Option.map_eq_some_iff.1 h
      dsimp only
      have hemit : emit s.held s.capsLock (scancodes [.interrupt data second]) =
          some (held₁, capsLock₁, cs) := by
        show emit _ _ [readCode data second] = _
        simp only [emit, ho, Option.bind_some, Option.map_some, List.append_nil]
      obtain ⟨hheld, hcaps⟩ := foldl_inputKey_held
        { s with held := held₁, capsLock := capsLock₁ } cs
      rw [hheld, hcaps, hemit]
      rcases outcome_chars ho with rfl | ⟨c, rfl⟩
      · exact ⟨[], [], rfl, List.Sublist.refl _, fun _ => rfl, rfl, (List.append_nil _).symm,
          hinv⟩
      · obtain ⟨accepted, hsub, hall, hcnt, hins, hinv'⟩ :=
          inputKey_spec (s := { s with held := held₁, capsLock := capsLock₁ }) hinv c
        exact ⟨[c], accepted, rfl, hsub, fun hroom => hall (hroom (outcome_press ho)), hcnt, hins,
          hinv'⟩

/-- Over a run, the characters are let in in their order, all of them where the buffer has room
at every press. -/
theorem run_input {acts : List KbdAct} (hinv : s.input.Inv)
    (h : Run.final step s acts = some s') :
    ∃ cs accepted, emit s.held s.capsLock (scancodes acts) = some (s'.held, s'.capsLock, cs) ∧
      accepted.Sublist cs ∧
      ((∀ τ ∈ Run.trace step s acts, isPress τ.label = true → τ.pre.input.full = false) →
        accepted = cs) ∧
      s'.keyCnt = s.keyCnt + accepted.length ∧
      s'.input.inserted = s.input.inserted ++ accepted ∧ s'.input.Inv := by
  induction acts generalizing s with
  | nil =>
      obtain rfl := Option.some.inj h
      exact ⟨[], [], rfl, List.Sublist.refl _, fun _ => rfl, rfl, (List.append_nil _).symm, hinv⟩
  | cons a acts ih =>
      rw [Run.final] at h
      cases hstep : step s a with
      | none =>
          rw [hstep] at h
          simp at h
      | some s₁ =>
          rw [hstep] at h
          obtain ⟨cs₁, acc₁, hemit₁, hsub₁, hroom₁, hcnt₁, hins₁, hinv₁⟩ := step_input hinv hstep
          obtain ⟨cs₂, acc₂, hemit₂, hsub₂, hroom₂, hcnt₂, hins₂, hinv₂⟩ := ih hinv₁ h
          refine ⟨cs₁ ++ cs₂, acc₁ ++ acc₂, ?_, hsub₁.append hsub₂, fun hroom => ?_, ?_, ?_, hinv₂⟩
          · rw [show scancodes (a :: acts) = scancodes [a] ++ scancodes acts from
              List.filterMap_append (l := [a])]
            exact emit_trans hemit₁ hemit₂
          · unfold Run.trace at hroom
            rw [hstep] at hroom
            have hfirst : acc₁ = cs₁ := hroom₁ (hroom _ List.mem_cons_self)
            rw [hfirst, hroom₂ fun τ hτ => hroom τ (List.mem_cons_of_mem _ hτ)]
          · rw [hcnt₂, hcnt₁, List.length_append, Nat.add_assoc]
          · rw [hins₂, hins₁, List.append_assoc]

/-- **Typing.** Every text can be typed: where no shift key is held, what reaches the readers and
what is left in the buffer is what was there and then the text, less the keys that found the
buffer full when they were pressed; `key_cnt` counts the others, and all shift keys are up
again. -/
theorem typed_text_read {acts : List KbdAct} {text : List UInt8} (hinv : s.input.Inv)
    (hup : ∀ k, s.held k = false) (hacts : scancodes acts = typing s.capsLock text)
    (h : Run.final step s acts = some s') :
    ∃ accepted : List UInt8, accepted.Sublist text ∧
      ((∀ τ ∈ Run.trace step s acts, isPress τ.label = true → τ.pre.input.full = false) →
        accepted = text) ∧
      s'.input.removed ++ s'.input.contents = s.input.removed ++ s.input.contents ++ accepted ∧
      s'.keyCnt = s.keyCnt + accepted.length ∧
      (∀ k, s'.held k = false) ∧ s'.capsLock = s.capsLock := by
  obtain ⟨cs, accepted, hemit, hsub, hroom, hcnt, hins, hinv'⟩ := run_input hinv h
  have hheld : s.held = fun _ => false := funext hup
  rw [hacts, hheld, emit_typing] at hemit
  obtain ⟨hheld', hcaps', rfl⟩ : (fun _ => false) = s'.held ∧ s.capsLock = s'.capsLock ∧ text = cs :=
    by simpa using hemit
  refine ⟨accepted, hsub, hroom, ?_, hcnt, fun k => by rw [← hheld'], hcaps'.symm⟩
  rw [← hinv'.log, ← hinv.log, hins]

theorem typed_text_read_sample : ∃ s', Run.final step powerOn sampleActs = some s' ∧
    ∃ accepted : List UInt8, accepted.Sublist [72] ∧
      ((∀ τ ∈ Run.trace step powerOn sampleActs, isPress τ.label = true →
        τ.pre.input.full = false) → accepted = [72]) ∧
      s'.input.removed ++ s'.input.contents = powerOn.input.removed ++ powerOn.input.contents ++
        accepted ∧
      s'.keyCnt = powerOn.keyCnt + accepted.length ∧
      (∀ k, s'.held k = false) ∧ s'.capsLock = powerOn.capsLock := by
  have hrun : (Run.final step powerOn sampleActs).isSome = true := by decide
  obtain ⟨s', hs'⟩ := Option.isSome_iff_exists.1 hrun
  exact ⟨s', hs', typed_text_read ⟨by decide, by decide, rfl⟩ (fun _ => rfl) (by decide) hs'⟩

end Kbd

end OsTools.Devices

import OsTools.Devices.Intq
import OsTools.Stdlib.Printf
import OsTools.Threads.Lock
/-!
# OsTools.Kernel.Console

The console of `lib/kernel/console.c` between `console_init` and a panic, with any
number of threads and with interrupt handlers that print without the lock.

A call of one of its functions is the steps it takes after its `acquire_console`;
calls inside it, as from a `printf` in the page allocator, are among them. Each
character goes to the serial port first and to the display second, with room for
other threads in between. The steps of the lock are those of `OsTools.Threads.Lock`.

Of the serial port the model has what `serial_putc` waits for: its mode and how many
bytes its queue holds. A thread that has interrupts on waits for room in a full queue, until
the port's interrupt has sent a byte; whoever has them off sends the oldest byte itself.
How the queue hands over its bytes is the subject of `OsTools.Devices.Serial`.
`write_cnt` is left out.

The proof gives every thread a phase (`Phase`): outside, waiting for the lock, holding
it, giving it up. The order of the calls is the order in which they get the lock, and
while a thread holds it, what it has printed and what it has left make up its call's text.
One lemma per step shows that the phases are kept; a step of one thread leaves the phase of
another alone (`Phase.other`), since only the holder of the lock prints.
-/

namespace OsTools.Kernel

open OsTools.Threads
open OsTools.Devices (INTQ_BUFSIZE)
open Function (update)

/-- The devices behind `putchar_have_lock`. -/
inductive Device
  | serial
  | vga
  deriving DecidableEq

/-- What a thread does on the console, a step at a time. -/
inductive ConItem
  | acquire
  | put (d : Device) (c : UInt8)
  | release
  deriving DecidableEq

/-- The items end `n` calls, one inside the other, and do nothing outside of them. -/
def closes : Nat → List ConItem → Bool
  | 0, items => items.isEmpty
  | _ + 1, [] => false
  | n + 1, .acquire :: items => closes (n + 2) items
  | n + 1, .put _ _ :: items => closes (n + 1) items
  | n + 1, .release :: items => closes n items

/-- A call, from after its `acquire_console` on. -/
structure ConCall where
  items : List ConItem
  balanced : closes 1 items = true

/-- The characters that items put on a device. -/
def putOn (d : Device) (items : List ConItem) : List UInt8 :=
  items.filterMap fun
    | .put d' c => if d' = d then some c else none
    | _ => none

/-- `putchar_have_lock`, and for each character of a text. -/
def putcharHaveLock (c : UInt8) : List ConItem := [.put .serial c, .put .vga c]

def putAll (text : List UInt8) : List ConItem := text.flatMap putcharHaveLock

theorem closes_putAll (n : Nat) (text : List UInt8) (items : List ConItem) :
    closes (n + 1) (putAll text ++ items) = closes (n + 1) items := by
  induction text with
  | nil => rfl
  | cons c text ih => exact ih

theorem putOn_putAll (d : Device) (text : List UInt8) : putOn d (putAll text) = text := by
  induction text with
  | nil => rfl
  | cons c text ih =>
      have hcons : putOn d (putAll (c :: text)) = c :: putOn d (putAll text) := by
        cases d <;> rfl
      rw [hcons, ih]

/-- A call that prints a text and nothing else. -/
def printing (text : List UInt8) : ConCall :=
  ⟨putAll text ++ [.release], closes_putAll 0 text _⟩

def putbuf (buffer : List UInt8) : ConCall := printing buffer

/-- `puts`, of the characters of a string. -/
def puts (s : List UInt8) : ConCall := printing (s ++ [10])

def putchar (c : UInt8) : ConCall := printing [c]

/-- `vprintf`, whose helper is called for each character of the text. -/
def vprintf (format : List UInt8) (args : Stdlib.Printf.Args) :
    Except Stdlib.Printf.Fault ConCall :=
  (Stdlib.Printf.vprintf format args).map printing

theorem putOn_append (d : Device) (is js : List ConItem) :
    putOn d (is ++ js) = putOn d is ++ putOn d js := List.filterMap_append

/-- The text of a call. -/
def ConCall.text (call : ConCall) (d : Device) : List UInt8 := putOn d call.items

theorem printing_text (text : List UInt8) (d : Device) : (printing text).text d = text := by
  show putOn d (putAll text ++ [.release]) = text
  rw [putOn_append, putOn_putAll]
  exact List.append_nil _

/-! ### The system -/

variable {Tid : Type} [DecidableEq Tid]

/-- The console and its threads. `todo` is what a thread has left of its call and `off` says
that it has interrupts off; `out` is what each device was given, with the thread that gave it or
`none` for an interrupt handler; `history` are the calls so far. `queue` says that the
serial port is in mode `QUEUE`, and `txq` is the number of bytes in its queue. -/
structure ConsoleSys (Tid : Type) where
  lock : LockSys Tid
  depth : Nat
  todo : Tid → List ConItem
  off : Tid → Bool
  queue : Bool
  txq : Nat
  out : Device → List (Option Tid × UInt8)
  history : List (Tid × ConCall)

/-- `setLevel` is `intr_set_level` between calls, and `run` the next item as far as it does not
involve the lock. -/
inductive ConAct
  | begin (call : ConCall)
  | setLevel (off : Bool)
  | lock (a : LockAct)
  | run

namespace ConsoleSys

/-- After `console_init`, when the serial port is still polled. -/
def init : ConsoleSys Tid where
  lock := LockSys.init
  depth := 0
  todo := fun _ => []
  off := fun _ => false
  queue := false
  txq := 0
  out := fun _ => []
  history := []

/-- `intq_full`: one place of the buffer stays empty. -/
def intqFull (s : ConsoleSys Tid) : Bool := INTQ_BUFSIZE ≤ s.txq + 1

/-- With interrupts off and the queue full, the oldest byte is sent via polling. -/
def pollOldest (s : ConsoleSys Tid) (off : Bool) : ConsoleSys Tid :=
  { s with txq := if off ∧ s.intqFull then s.txq - 1 else s.txq }

/-- What `serial_putc` does to the queue, with `off` if it finds interrupts off; no result
while it waits. -/
def serialPutc (s : ConsoleSys Tid) (off : Bool) : Option (ConsoleSys Tid) :=
  if s.queue then
    let s := s.pollOldest off
    if s.intqFull then none else some { s with txq := s.txq + 1 }
  else some s

/-- A device is given a character. -/
def sent (s : ConsoleSys Tid) (t : Option Tid) (d : Device) (c : UInt8) : ConsoleSys Tid :=
  { s with out := update s.out d (s.out d ++ [(t, c)]) }

/-- `serial_putc` or `vga_putc`. -/
def putc (s : ConsoleSys Tid) (t : Option Tid) (off : Bool) (d : Device) (c : UInt8) :
    Option (ConsoleSys Tid) :=
  match d with
  | .serial => (s.serialPutc off).map fun s => s.sent t .serial c
  | .vga => some (s.sent t .vga c)

/-- `serial_interrupt`, with the port ready for `n` bytes. -/
def serialInterrupt (s : ConsoleSys Tid) (n : Nat) : ConsoleSys Tid := { s with txq := s.txq - n }

def setTodo (s : ConsoleSys Tid) (t : Tid) (items : List ConItem) : ConsoleSys Tid :=
  { s with todo := update s.todo t items }

/-- A step of a thread. -/
def step (s : ConsoleSys Tid) (t : Tid) : ConAct → Option (ConsoleSys Tid)
  | .begin call =>
      if s.todo t = [] then
        some { s.setTodo t (.acquire :: call.items) with history := s.history ++ [(t, call)] }
      else none
  | .setLevel off => if s.todo t = [] then some { s with off := update s.off t off } else none
  | .lock a =>
      match a, s.todo t with
      -- lock_acquire, if the lock is not held by the thread already
      | .acquire, .acquire :: _ =>
          if s.lock.holder = some t then none
          else (s.lock.step t .acquire).map fun lock => { s with lock }
      | .setHolder, .acquire :: items =>
          (s.lock.step t .setHolder).map fun lock => { s.setTodo t items with lock }
      -- lock_release, if this is the outermost call
      | .release, .release :: _ =>
          if s.depth > 0 then none else (s.lock.step t .release).map fun lock => { s with lock }
      | .up, .release :: items =>
          (s.lock.step t .up).map fun lock => { s.setTodo t items with lock }
      | _, _ => none
  | .run =>
      match s.todo t with
      | .acquire :: items =>
          if s.lock.holder = some t then some { s.setTodo t items with depth := s.depth + 1 }
          else none
      | .put d c :: items =>
          -- ASSERT (console_locked_by_current_thread ())
          if s.lock.holder = some t then (s.setTodo t items).putc (some t) (s.off t) d c else none
      | .release :: items =>
          if s.depth > 0 then some { s.setTodo t items with depth := s.depth - 1 } else none
      | [] => none

/-- A step of a thread, a character from an interrupt handler, `serial_init_queue`, or the serial
port's interrupt. -/
inductive Act (Tid : Type)
  | thread (t : Tid) (a : ConAct)
  | interrupt (d : Device) (c : UInt8)
  | serialInitQueue
  | serial (n : Nat)

def stepAct (s : ConsoleSys Tid) : Act Tid → Option (ConsoleSys Tid)
  | .thread t a => s.step t a
  | .interrupt d c => s.putc none true d c
  | .serialInitQueue => if s.queue then none else some { s with queue := true }
  | .serial n => if s.queue then some (s.serialInterrupt n) else none

def Step (s : ConsoleSys Tid) (a : Act Tid) (s' : ConsoleSys Tid) : Prop := s.stepAct a = some s'

/-- What threads sent to a device. -/
def threadText (s : ConsoleSys Tid) (d : Device) : List UInt8 :=
  (s.out d).filterMap fun (t, c) => t.map fun _ => c

/-- The calls of a thread. -/
def callsOf (t : Tid) (calls : List (Tid × ConCall)) : List ConCall :=
  calls.filterMap fun (u, call) => if u = t then some call else none

def textOf (calls : List (Tid × ConCall)) (d : Device) : List UInt8 :=
  calls.flatMap fun (_, call) => call.text d

variable {s s' : ConsoleSys Tid} {t u : Tid} {order : List (Tid × ConCall)}

theorem callsOf_append (calls calls' : List (Tid × ConCall)) :
    callsOf t (calls ++ calls') = callsOf t calls ++ callsOf t calls' := List.filterMap_append

theorem callsOf_self (call : ConCall) : callsOf t [(t, call)] = [call] := by simp [callsOf]

theorem callsOf_other (h : u ≠ t) (call : ConCall) : callsOf t [(u, call)] = [] := by
  simp [callsOf, h]

omit [DecidableEq Tid] in
theorem textOf_snoc (call : ConCall) (d : Device) :
    textOf (order ++ [(t, call)]) d = textOf order d ++ call.text d := by
  simp [textOf]

/-! ### The invariant -/

/-- Where a thread is. `order` are the calls that have got the lock. -/
inductive Phase (s : ConsoleSys Tid) (order : List (Tid × ConCall)) (t : Tid) : Prop
  | out (hpc : s.lock.pc t = .out) (htodo : s.todo t = [])
      (hist : callsOf t s.history = callsOf t order)
  | waiting (call : ConCall)
      (hpc : s.lock.pc t = .out ∨ s.lock.pc t = .blocked ∨ s.lock.pc t = .woken ∨
        s.lock.pc t = .taken)
      (htodo : s.todo t = .acquire :: call.items)
      (hist : callsOf t s.history = callsOf t order ++ [call])
  | held (hpc : s.lock.pc t = .held) (htodo : closes (s.depth + 1) (s.todo t) = true)
      (htext : ∀ d, s.threadText d ++ putOn d (s.todo t) = textOf order d)
      (hlast : ∃ call, order.getLast? = some (t, call) ∧
        ∀ d, putOn d (s.todo t) <:+ call.text d)
      (hist : callsOf t s.history = callsOf t order)
  | releasing (hpc : s.lock.pc t = .releasing) (htodo : s.todo t = [.release])
      (hist : callsOf t s.history = callsOf t order)

/-- While nobody holds the lock, the calls that have had it are printed in full. -/
structure Inv [Fintype Tid] (s : ConsoleSys Tid) (order : List (Tid × ConCall)) : Prop where
  lock : s.lock.Inv
  phase : ∀ t, Phase s order t
  room : s.txq < INTQ_BUFSIZE
  quiet : (∀ t, s.lock.pc t ≠ .held) → s.depth = 0 ∧ ∀ d, s.threadText d = textOf order d

omit [DecidableEq Tid] in
theorem threadText_sent (d d' : Device) (o : Option Tid) (c : UInt8) :
    (s.sent o d c).threadText d' =
      s.threadText d' ++ (if d' = d ∧ o.isSome then [c] else []) := by
  unfold threadText sent
  by_cases hd : d' = d
  · subst hd
    show List.filterMap _ (update s.out d' _ d') = _
    rw [Function.update_self, List.filterMap_append]
    cases o <;> simp
  · show List.filterMap _ (update s.out d _ d') = _
    rw [Function.update_of_ne hd, if_neg (by simp [hd]), List.append_nil]

omit [DecidableEq Tid] in
theorem intqFull_eq_false : s.intqFull = false ↔ s.txq + 1 < INTQ_BUFSIZE := by
  rw [intqFull, decide_eq_false_iff_not, Nat.not_le]

omit [DecidableEq Tid] in
/-- Whether and how the queue is involved, the device is given the character. -/
theorem putc_eq {o : Option Tid} {off : Bool} {d : Device} {c : UInt8}
    (h : s.putc o off d c = some s') (hroom : s.txq < INTQ_BUFSIZE) :
    ∃ n < INTQ_BUFSIZE, s' = { s.sent o d c with txq := n } := by
  cases d with
  | vga => exact ⟨s.txq, hroom, (Option.some.inj h).symm⟩
  | serial =>
      obtain ⟨s₁, hs₁, rfl⟩ := Option.map_eq_some_iff.mp h
      unfold serialPutc at hs₁
      split at hs₁
      · dsimp only at hs₁
        split at hs₁
        · exact absurd hs₁ (by simp)
        · rename_i hfree
          obtain rfl := Option.some.inj hs₁
          exact ⟨_, intqFull_eq_false.mp (by simpa using hfree), rfl⟩
      · obtain rfl := Option.some.inj hs₁
        exact ⟨s.txq, hroom, rfl⟩

omit [DecidableEq Tid] in
/-- Only a thread that has interrupts on waits for room. -/
theorem putc_isSome {o : Option Tid} {off : Bool} {d : Device} {c : UInt8}
    (hroom : s.txq < INTQ_BUFSIZE)
    (h : d = .vga ∨ s.queue = false ∨ off = true ∨ s.intqFull = false) :
    (s.putc o off d c).isSome := by
  cases d with
  | vga => rfl
  | serial =>
      have hcases := h.resolve_left (by simp)
      show ((s.serialPutc off).map _).isSome
      rw [Option.isSome_map]
      unfold serialPutc
      split
      · rename_i hqueue
        have hfree : (s.pollOldest off).intqFull = false := by
          rcases hcases with hpoll | hoff | hfree
          · exact absurd hqueue (by simp [hpoll])
          · -- the oldest byte is sent first
            rw [intqFull_eq_false, pollOldest, hoff]
            by_cases hfull : s.intqFull = true
            · simp only [hfull, and_self, if_true, INTQ_BUFSIZE] at hroom ⊢
              omega
            · simpa [hfull] using intqFull_eq_false.mp (by simpa using hfull)
          · rw [intqFull_eq_false, pollOldest, if_neg (by simp [hfree])]
            exact intqFull_eq_false.mp hfree
        simp [hfree]
      · rfl

/-- What another thread does leaves a phase alone that does not hold the lock. -/
theorem Phase.other {order' : List (Tid × ConCall)} (h : Phase s order u)
    (hpc : s'.lock.pc u = s.lock.pc u ∨ s.lock.pc u = .blocked ∧ s'.lock.pc u = .woken)
    (htodo : s'.todo u = s.todo u)
    (hhist : callsOf u s'.history = callsOf u s.history)
    (horder : callsOf u order' = callsOf u order)
    (hheld : s.lock.pc u = .held → s'.depth = s.depth ∧ order' = order ∧
      ∀ d, s'.threadText d = s.threadText d) : Phase s' order' u := by
  cases h with
  | out hpc' htodo' hist =>
      refine .out ?_ (htodo.trans htodo') (by rw [hhist, horder, hist])
      rcases hpc with hpc | ⟨hb, -⟩
      · rw [hpc, hpc']
      · exact absurd (hb.symm.trans hpc') (by decide)
  | waiting call hpc' htodo' hist =>
      refine .waiting call ?_ (htodo.trans htodo') (by rw [hhist, horder, hist])
      rcases hpc with hpc | ⟨-, hw⟩
      · rw [hpc]
        exact hpc'
      · exact Or.inr (Or.inr (Or.inl hw))
  | held hpc' htodo' htext hlast hist =>
      obtain ⟨hdepth, rfl, hsame⟩ := hheld hpc'
      refine .held ?_ (by rw [hdepth, htodo]; exact htodo') (fun d => ?_) (by rw [htodo]; exact hlast)
        (by rw [hhist, hist])
      · rcases hpc with hpc | ⟨hb, -⟩
        · rw [hpc, hpc']
        · exact absurd (hb.symm.trans hpc') (by decide)
      · rw [hsame, htodo]
        exact htext d
  | releasing hpc' htodo' hist =>
      refine .releasing ?_ (htodo.trans htodo') (by rw [hhist, horder, hist])
      rcases hpc with hpc | ⟨hb, -⟩
      · rw [hpc, hpc']
      · exact absurd (hb.symm.trans hpc') (by decide)

variable [Fintype Tid]

/-- While `t` has the unit of the lock, nobody else holds it. -/
theorem Inv.alone (h : Inv s order) (ht : (s.lock.pc t).owns = true) (hu : u ≠ t) :
    s.lock.pc u ≠ .held := fun hheld =>
  hu (h.lock.owner_unique (by rw [hheld]; rfl) ht)

/-- The holder is in its phase. -/
theorem Inv.holder (h : Inv s order) (hh : s.lock.holder = some t) :
    s.lock.pc t = .held ∧ closes (s.depth + 1) (s.todo t) = true ∧
      (∀ d, s.threadText d ++ putOn d (s.todo t) = textOf order d) ∧
      (∃ call, order.getLast? = some (t, call) ∧ ∀ d, putOn d (s.todo t) <:+ call.text d) ∧
      callsOf t s.history = callsOf t order := by
  have hpc := (h.lock.holder t).mp hh
  cases h.phase t with
  | out hpc' => exact absurd (hpc.symm.trans hpc') (by decide)
  | waiting call hpc' =>
      rw [hpc] at hpc'
      exact absurd hpc' (by simp)
  | held _ htodo htext hlast hist => exact ⟨hpc, htodo, htext, hlast, hist⟩
  | releasing hpc' => exact absurd (hpc.symm.trans hpc') (by decide)

/-- The holder of the lock takes the next item, of which `d` gets `put d`. -/
theorem Inv.held_step (h : Inv s order) (hh : s.lock.holder = some t) {item : ConItem}
    {items : List ConItem} (htodo : s.todo t = item :: items)
    (hlock : s'.lock = s.lock) (htodo' : s'.todo = update s.todo t items)
    (hroom : s'.txq < INTQ_BUFSIZE) (hhist : s'.history = s.history) (hcloses : closes (s'.depth + 1) items = true)
    (htext : ∀ d, s'.threadText d ++ putOn d items = s.threadText d ++ putOn d (item :: items)) :
    Inv s' order := by
  obtain ⟨hpc, -, htext₀, ⟨call, hcall, hsuffix⟩, hist⟩ := h.holder hh
  have howns : (s.lock.pc t).owns = true := by rw [hpc]; rfl
  have hself : s'.todo t = items := by rw [htodo', Function.update_self]
  refine ⟨hlock ▸ h.lock, fun u => ?_, hroom, fun hnone => ?_⟩
  · by_cases hu : u = t
    · subst hu
      refine .held (by rw [hlock, hpc]) (by rw [hself]; exact hcloses) (fun d => ?_) ?_
        (by rw [hhist, hist])
      · rw [hself, htext, ← htodo]
        exact htext₀ d
      · refine ⟨call, hcall, fun d => ?_⟩
        rw [hself]
        refine List.IsSuffix.trans ?_ (hsuffix d)
        rw [htodo, ← List.singleton_append, putOn_append]
        exact List.suffix_append _ _
    · refine (h.phase u).other (Or.inl (by rw [hlock])) ?_ (by rw [hhist]) rfl
        fun hheld => absurd hheld (h.alone howns hu)
      rw [htodo', Function.update_of_ne hu]
  · rw [hlock] at hnone
    exact absurd hpc (hnone t)

/-- While the lock is with a thread that does not print, since it has just got it or gives it
up, the calls so far are printed in full. -/
theorem Inv.quiet_of_owns (h : Inv s order) (howns : (s.lock.pc t).owns = true)
    (hnot : s.lock.pc t ≠ .held) : s.depth = 0 ∧ ∀ d, s.threadText d = textOf order d := by
  refine h.quiet fun u hu => ?_
  by_cases hut : u = t
  · exact hnot (hut ▸ hu)
  · exact h.alone howns hut hu

/-- A call begins, outside of the others. -/
theorem Inv.begin {call : ConCall} (h : Inv s order) (htodo : s.todo t = []) :
    Inv { s.setTodo t (.acquire :: call.items) with history := s.history ++ [(t, call)] } order := by
  have hpc : s.lock.pc t = .out ∧ callsOf t s.history = callsOf t order := by
    cases h.phase t with
    | out hpc _ hist => exact ⟨hpc, hist⟩
    | waiting call _ htodo' => exact absurd (htodo.symm.trans htodo') (by simp)
    | held _ htodo' => rw [htodo] at htodo'; exact absurd htodo' (by simp [closes])
    | releasing _ htodo' => exact absurd (htodo.symm.trans htodo') (by simp)
  refine ⟨h.lock, fun u => ?_, h.room, h.quiet⟩
  by_cases hu : u = t
  · subst hu
    refine .waiting call (Or.inl hpc.1) (Function.update_self ..) ?_
    show callsOf u (s.history ++ [(u, call)]) = _
    rw [callsOf_append, callsOf_self, hpc.2]
  · refine (h.phase u).other (Or.inl rfl) (Function.update_of_ne hu ..) ?_ rfl
      fun _ => ⟨rfl, rfl, fun _ => rfl⟩
    show callsOf u (s.history ++ [(t, call)]) = _
    rw [callsOf_append, callsOf_other (Ne.symm hu), List.append_nil]

/-- What touches neither the lock nor the calls nor what was printed. -/
theorem Inv.rest (h : Inv s order) (hlock : s'.lock = s.lock) (hdepth : s'.depth = s.depth)
    (htodo : s'.todo = s.todo) (hhist : s'.history = s.history)
    (htext : ∀ d, s'.threadText d = s.threadText d) (hroom : s'.txq < INTQ_BUFSIZE) :
    Inv s' order := by
  refine ⟨hlock ▸ h.lock, fun u => ?_, hroom, fun hnone => ?_⟩
  · exact (h.phase u).other (Or.inl (by rw [hlock])) (by rw [htodo]) (by rw [hhist]) rfl
      fun _ => ⟨hdepth, rfl, htext⟩
  · rw [hlock] at hnone
    rw [hdepth]
    exact ⟨(h.quiet hnone).1, fun d => (htext d).trans ((h.quiet hnone).2 d)⟩

/-- The holder of the lock takes an item: it begins a call inside its own, prints a character,
or ends a call inside its own. -/
theorem Inv.run (h : Inv s order) (hstep : s.step t .run = some s') : Inv s' order := by
  simp only [ConsoleSys.step] at hstep
  split at hstep
  · rename_i items htodo
    split at hstep
    · rename_i hh
      obtain rfl := Option.some.inj hstep
      have hcloses := (h.holder hh).2.1
      rw [htodo] at hcloses
      exact h.held_step hh htodo rfl rfl h.room rfl hcloses fun d => rfl
    · exact absurd hstep (by simp)
  · rename_i d c items htodo
    split at hstep
    · rename_i hh
      obtain ⟨n, hn, rfl⟩ := putc_eq hstep h.room
      have hcloses := (h.holder hh).2.1
      rw [htodo] at hcloses
      refine h.held_step hh htodo rfl rfl hn rfl hcloses fun d' => ?_
      show ((s.setTodo t items).sent (some t) d c).threadText d' ++ _ = _
      rw [threadText_sent]
      by_cases hd : d = d'
      · subst hd
        simp [threadText, setTodo, putOn]
      · simp [threadText, setTodo, putOn, hd, Ne.symm hd]
    · exact absurd hstep (by simp)
  · rename_i items htodo
    split at hstep
    · rename_i hdepth
      obtain rfl := Option.some.inj hstep
      obtain ⟨n, hn⟩ := Nat.exists_eq_succ_of_ne_zero (Nat.ne_of_gt hdepth)
      have hh : s.lock.holder = some t := by
        cases h.phase t with
        | out _ htodo' => exact absurd (htodo.symm.trans htodo') (by simp)
        | waiting call _ htodo' => exact absurd (htodo.symm.trans htodo') (by simp)
        | held hpc => exact (h.lock.holder t).mpr hpc
        | releasing hpc _ _ =>
            have := (h.quiet_of_owns (by rw [hpc]; rfl) (by rw [hpc]; decide)).1
            omega
      have hcloses := (h.holder hh).2.1
      rw [htodo, hn] at hcloses
      refine h.held_step hh htodo rfl rfl h.room rfl ?_ fun d => rfl
      show closes (s.depth - 1 + 1) items = true
      rw [hn]
      exact hcloses
    · exact absurd hstep (by simp)
  · exact absurd hstep (by simp)

/-- A thread tries to get the lock, or is woken up and tries again. -/
theorem Inv.wait {l : LockSys Tid} {items : List ConItem} (h : Inv s order)
    (htodo : s.todo t = .acquire :: items) (hl : s.lock.step t .acquire = some l) :
    Inv { s with lock := l } order := by
  obtain ⟨hpc, p, hp, hl'⟩ := LockSys.step_pc hl
  have hother : ∀ u, u ≠ t → l.pc u = s.lock.pc u := fun u hu => by
    rw [hl', Function.update_of_ne hu]
  refine ⟨LockSys.step_inv h.lock hl, fun u => ?_, h.room, fun hnone => h.quiet fun u hu => ?_⟩
  · by_cases hu : u = t
    · subst hu
      cases h.phase u with
      | out _ htodo' => exact absurd (htodo.symm.trans htodo') (by simp)
      | waiting call _ htodo' hist =>
          refine .waiting call ?_ htodo' hist
          show l.pc u = _ ∨ _
          rw [hl', Function.update_self]
          rcases hp with rfl | rfl <;> simp
      | held hpc' => rw [hpc'] at hpc; exact absurd hpc (by simp)
      | releasing hpc' => rw [hpc'] at hpc; exact absurd hpc (by simp)
    · exact (h.phase u).other (Or.inl (hother u hu)) rfl rfl rfl
        fun _ => ⟨rfl, rfl, fun _ => rfl⟩
  · by_cases hut : u = t
    · rw [hut] at hu
      rw [hu] at hpc
      exact absurd hpc (by simp)
    · exact hnone u ((hother u hut).trans hu)

/-- A thread has got the lock: its call is the next one in the order. -/
theorem Inv.enter {l : LockSys Tid} {items : List ConItem} (h : Inv s order)
    (htodo : s.todo t = .acquire :: items) (hl : s.lock.step t .setHolder = some l) :
    ∃ call, Inv { s.setTodo t items with lock := l } (order ++ [(t, call)]) := by
  obtain ⟨hpc, hl'⟩ := LockSys.step_pc hl
  have howns : (s.lock.pc t).owns = true := by rw [hpc]; rfl
  have hquiet := h.quiet_of_owns howns (by rw [hpc]; decide)
  obtain ⟨call, hcall, hist⟩ : ∃ call : ConCall, items = call.items ∧
      callsOf t s.history = callsOf t order ++ [call] := by
    cases h.phase t with
    | out hpc' => exact absurd (hpc.symm.trans hpc') (by decide)
    | waiting call _ htodo' hist =>
        exact ⟨call, (List.cons.inj (htodo.symm.trans htodo')).2, hist⟩
    | held hpc' => exact absurd (hpc.symm.trans hpc') (by decide)
    | releasing hpc' => exact absurd (hpc.symm.trans hpc') (by decide)
  have hself : l.pc t = .held := by rw [hl', Function.update_self]
  refine ⟨call, LockSys.step_inv h.lock hl, fun u => ?_, h.room,
    fun hnone => absurd hself (hnone t)⟩
  by_cases hu : u = t
  · subst hu
    have htodo' : update s.todo u items u = call.items := by
      rw [Function.update_self, hcall]
    refine .held hself ?_ (fun d => ?_) ⟨call, List.getLast?_concat, fun d => ?_⟩ ?_
    · show closes (s.depth + 1) (update s.todo u items u) = true
      rw [htodo', hquiet.1]
      exact call.balanced
    · show s.threadText d ++ putOn d (update s.todo u items u) = _
      rw [htodo', textOf_snoc, hquiet.2]
      rfl
    · show putOn d (update s.todo u items u) <:+ _
      rw [htodo']
      exact List.suffix_refl _
    · rw [callsOf_append, callsOf_self]
      exact hist
  · refine (h.phase u).other (Or.inl ?_) (Function.update_of_ne hu ..) rfl ?_
      fun hheld => absurd hheld (h.alone howns hu)
    · show l.pc u = _
      rw [hl', Function.update_of_ne hu]
    · rw [callsOf_append, callsOf_other (Ne.symm hu), List.append_nil]

/-- The holder gives up the lock at the end of its outermost call, of which nothing is left. -/
theorem Inv.leave {l : LockSys Tid} {items : List ConItem} (h : Inv s order)
    (htodo : s.todo t = .release :: items) (hdepth : s.depth = 0)
    (hl : s.lock.step t .release = some l) : Inv { s with lock := l } order := by
  obtain ⟨hpc, hl'⟩ := LockSys.step_pc hl
  obtain ⟨-, hcloses, htext, -, hist⟩ := h.holder ((h.lock.holder t).mpr hpc)
  rw [htodo, hdepth] at hcloses
  obtain rfl : items = [] := by simpa [closes] using hcloses
  have howns : (s.lock.pc t).owns = true := by rw [hpc]; rfl
  refine ⟨LockSys.step_inv h.lock hl, fun u => ?_, h.room, fun _ => ⟨hdepth, fun d => ?_⟩⟩
  · by_cases hu : u = t
    · subst hu
      refine .releasing ?_ htodo hist
      show l.pc u = _
      rw [hl', Function.update_self]
    · refine (h.phase u).other (Or.inl ?_) rfl rfl rfl
        fun hheld => absurd hheld (h.alone howns hu)
      show l.pc u = _
      rw [hl', Function.update_of_ne hu]
  · have := htext d
    rwa [htodo, show putOn d [ConItem.release] = [] from rfl, List.append_nil] at this

/-- The call returns. -/
theorem Inv.up {l : LockSys Tid} {items : List ConItem} (h : Inv s order)
    (htodo : s.todo t = .release :: items) (hl : s.lock.step t .up = some l) :
    Inv { s.setTodo t items with lock := l } order := by
  obtain ⟨hpc, hself, hother⟩ := LockSys.step_pc hl
  have howns : (s.lock.pc t).owns = true := by rw [hpc]; rfl
  obtain ⟨hnil, hist⟩ : items = [] ∧ callsOf t s.history = callsOf t order := by
    cases h.phase t with
    | out hpc' => exact absurd (hpc.symm.trans hpc') (by decide)
    | waiting call hpc' => rw [hpc] at hpc'; exact absurd hpc' (by simp)
    | held hpc' => exact absurd (hpc.symm.trans hpc') (by decide)
    | releasing _ htodo' hist =>
        exact ⟨(List.cons.inj (htodo.symm.trans htodo')).2, hist⟩
  have hquiet := h.quiet_of_owns howns (by rw [hpc]; decide)
  refine ⟨LockSys.step_inv h.lock hl, fun u => ?_, h.room, fun _ => hquiet⟩
  by_cases hu : u = t
  · subst hu
    refine .out hself ?_ hist
    show update s.todo u items u = []
    rw [Function.update_self, hnil]
  · exact (h.phase u).other (hother u hu) (Function.update_of_ne hu ..) rfl rfl
      fun hheld => absurd hheld (h.alone howns hu)

/-- **One step of a thread.** The order of the calls grows when one gets the lock. A step is
one of the lock or one of the code inside it, and each kind is a lemma above. -/
theorem Inv.step {a : ConAct} (h : Inv s order) (hstep : s.step t a = some s') :
    ∃ order', Inv s' order' := by
  cases a with
  | begin call =>
      simp only [ConsoleSys.step] at hstep
      split at hstep
      · rename_i htodo
        obtain rfl := Option.some.inj hstep
        exact ⟨order, h.begin htodo⟩
      · exact absurd hstep (by simp)
  | setLevel off =>
      simp only [ConsoleSys.step] at hstep
      split at hstep
      · obtain rfl := Option.some.inj hstep
        exact ⟨order, h.rest rfl rfl rfl rfl (fun _ => rfl) h.room⟩
      · exact absurd hstep (by simp)
  | run => exact ⟨order, h.run hstep⟩
  | lock a =>
      simp only [ConsoleSys.step] at hstep
      split at hstep
      · rename_i items htodo
        split at hstep
        · exact absurd hstep (by simp)
        · obtain ⟨l, hl, rfl⟩ := Option.map_eq_some_iff.mp hstep
          exact ⟨order, h.wait htodo hl⟩
      · rename_i items htodo
        obtain ⟨l, hl, rfl⟩ := Option.map_eq_some_iff.mp hstep
        obtain ⟨call, hcall⟩ := h.enter htodo hl
        exact ⟨_, hcall⟩
      · rename_i items htodo
        split at hstep
        · exact absurd hstep (by simp)
        · rename_i hdepth
          obtain ⟨l, hl, rfl⟩ := Option.map_eq_some_iff.mp hstep
          exact ⟨order, h.leave htodo (by omega) hl⟩
      · rename_i items htodo
        obtain ⟨l, hl, rfl⟩ := Option.map_eq_some_iff.mp hstep
        exact ⟨order, h.up htodo hl⟩
      · exact absurd hstep (by simp)

theorem init_inv : Inv (init : ConsoleSys Tid) [] :=
  ⟨LockSys.init_inv, fun _ => .out rfl rfl rfl, Nat.zero_lt_succ _, fun _ => ⟨rfl, fun _ => rfl⟩⟩

/-- What an interrupt handler prints is not a thread's. -/
theorem Inv.interrupt {d : Device} {c : UInt8} (h : Inv s order)
    (hstep : s.putc none true d c = some s') : Inv s' order := by
  obtain ⟨n, hn, rfl⟩ := putc_eq hstep h.room
  refine h.rest rfl rfl rfl rfl (fun d' => ?_) hn
  show (s.sent none d c).threadText d' = _
  rw [threadText_sent, if_neg (by simp), List.append_nil]

/-- **One step.** -/
theorem Inv.stepAct {a : Act Tid} (h : Inv s order) (hstep : s.Step a s') :
    ∃ order', Inv s' order' := by
  cases a with
  | thread t a => exact h.step hstep
  | interrupt d c => exact ⟨order, h.interrupt hstep⟩
  | serialInitQueue =>
      simp only [Step, ConsoleSys.stepAct] at hstep
      split at hstep
      · exact absurd hstep (by simp)
      · obtain rfl := Option.some.inj hstep
        exact ⟨order, h.rest rfl rfl rfl rfl (fun _ => rfl) h.room⟩
  | serial n =>
      simp only [Step, ConsoleSys.stepAct] at hstep
      split at hstep
      · obtain rfl := Option.some.inj hstep
        exact ⟨order, h.rest rfl rfl rfl rfl (fun _ => rfl)
          (Nat.lt_of_le_of_lt (Nat.sub_le _ _) h.room)⟩
      · exact absurd hstep (by simp)

/-- The thread is in `intq_putc` with the queue full. -/
def WaitsForRoom (s : ConsoleSys Tid) (t : Tid) : Prop :=
  (∃ c items, s.todo t = .put .serial c :: items) ∧ s.queue = true ∧ s.off t = false ∧
    s.intqFull = true

/-- No assertion fails in a thread on the console that waits neither for the lock nor for
room. The cases are its phases: outside the lock it can ask for it, inside it can put the next
character, and behind the last one it can release the lock. -/
theorem Inv.progress (h : Inv s order) (htodo : s.todo t ≠ []) (hpc : s.lock.pc t ≠ .blocked)
    (hroom : ¬ s.WaitsForRoom t) : ∃ a, (s.step t a).isSome := by
  have hlock : ∀ a, (s.lock.step t a).isSome →
      ∀ f : LockSys Tid → ConsoleSys Tid, ((s.lock.step t a).map f).isSome := fun a ha f => by
    rwa [Option.isSome_map]
  cases h.phase t with
  | out _ htodo' => exact absurd htodo' htodo
  | waiting call hpc' htodo' =>
      have hnot : s.lock.pc t ≠ .held := fun hheld => by
        rw [hheld] at hpc'
        exact absurd hpc' (by simp)
      have hh : s.lock.holder ≠ some t := fun hh => hnot ((h.lock.holder t).mp hh)
      by_cases htaken : s.lock.pc t = .taken
      · refine ⟨.lock .setHolder, ?_⟩
        simp only [ConsoleSys.step, htodo']
        exact hlock _ (LockSys.step_isSome h.lock htaken) _
      · refine ⟨.lock .acquire, ?_⟩
        simp only [ConsoleSys.step, htodo', hh, if_false]
        refine hlock _ (LockSys.step_isSome h.lock ?_) _
        rcases hpc' with hout | hblocked | hwoken | htaken'
        · exact Or.inl hout
        · exact absurd hblocked hpc
        · exact Or.inr hwoken
        · exact absurd htaken' htaken
  | held hpc' hcloses =>
      have hh : s.lock.holder = some t := (h.lock.holder t).mpr hpc'
      cases hitems : s.todo t with
      | nil => exact absurd hitems htodo
      | cons item items =>
          cases item with
          | acquire => exact ⟨.run, by simp [ConsoleSys.step, hitems, hh]⟩
          | put d c =>
              refine ⟨.run, ?_⟩
              simp only [ConsoleSys.step, hitems, hh, if_true]
              refine putc_isSome h.room ?_
              by_contra hnone
              rw [not_or, not_or, not_or, Bool.not_eq_false, Bool.not_eq_true,
                Bool.not_eq_false] at hnone
              obtain ⟨hvga, hqueue, hon, hfull⟩ := hnone
              have hserial : d = .serial := by
                cases d with
                | serial => rfl
                | vga => exact absurd rfl hvga
              exact hroom ⟨⟨c, items, hserial ▸ hitems⟩, hqueue, hon, hfull⟩
          | release =>
              by_cases hdepth : s.depth > 0
              · exact ⟨.run, by simp [ConsoleSys.step, hitems, hdepth]⟩
              · refine ⟨.lock .release, ?_⟩
                simp only [ConsoleSys.step, hitems, hdepth, if_false]
                exact hlock _ (LockSys.step_isSome h.lock hpc') _
  | releasing hpc' htodo' =>
      refine ⟨.lock .up, ?_⟩
      simp only [ConsoleSys.step, htodo']
      exact hlock _ (LockSys.step_isSome h.lock hpc') _

/-- The text on a device: the calls one after the other, the last of them perhaps in part. -/
structure Linear (s : ConsoleSys Tid) (order : List (Tid × ConCall)) : Prop where
  /-- A thread's calls come in its order, and those that have returned are there. -/
  calls : ∀ t, callsOf t order <+: callsOf t s.history
  returned : ∀ t, s.todo t = [] → callsOf t order = callsOf t s.history
  text : ∀ d, ∃ rest, s.threadText d ++ rest = textOf order d ∧
    (rest = [] ∨ ∃ t call, order.getLast? = some (t, call) ∧ rest <:+ call.text d ∧ s.todo t ≠ [])

theorem Inv.linear (h : Inv s order) : Linear s order := by
  refine ⟨fun t => ?_, fun t htodo => ?_, fun d => ?_⟩
  · cases h.phase t with
    | out _ _ hist => rw [hist]
    | waiting call _ _ hist =>
        rw [hist]
        exact List.prefix_append _ _
    | held _ _ _ _ hist => rw [hist]
    | releasing _ _ hist => rw [hist]
  · cases h.phase t with
    | out _ _ hist => exact hist.symm
    | waiting call _ htodo' => exact absurd (htodo.symm.trans htodo') (by simp)
    | held _ hcloses => rw [htodo] at hcloses; exact absurd hcloses (by simp [closes])
    | releasing _ htodo' => exact absurd (htodo.symm.trans htodo') (by simp)
  · by_cases hheld : ∃ t, s.lock.pc t = .held
    · obtain ⟨t, ht⟩ := hheld
      obtain ⟨-, hcloses, htext, ⟨call, hcall, hsuffix⟩, -⟩ := h.holder ((h.lock.holder t).mpr ht)
      refine ⟨putOn d (s.todo t), htext d, Or.inr ⟨t, call, hcall, hsuffix d, fun hnil => ?_⟩⟩
      rw [hnil] at hcloses
      exact absurd hcloses (by simp [closes])
    · refine ⟨[], ?_, Or.inl rfl⟩
      rw [List.append_nil]
      exact (h.quiet fun t ht => hheld ⟨t, ht⟩).2 d

/-- The port's interrupt makes room. -/
theorem Inv.serial_room (h : Inv s order) {n : Nat} (hn : 0 < n) :
    (s.serialInterrupt n).intqFull = false := by
  have hroom := h.room
  rw [intqFull_eq_false]
  simp only [serialInterrupt, INTQ_BUFSIZE] at hroom ⊢
  omega

/-- **The console is linearisable.** After every step of every run, what threads have printed on
each device is the texts of their calls one after the other, in one order for both devices that
keeps every thread's own. A thread that waits neither for the lock nor for room in the queue of
the serial port can go on; one that waits for room can, once the port has sent a byte. -/
theorem console_linearisable {ts : List (Transition (ConsoleSys Tid) (Act Tid))}
    (hrun : Run Step init ts) : ∀ τ ∈ ts,
      (∃ order, Linear τ.post order) ∧
      ∀ t, τ.post.todo t ≠ [] → τ.post.lock.pc t ≠ .blocked →
        (¬ τ.post.WaitsForRoom t → ∃ a, (τ.post.step t a).isSome) ∧
        ∀ n, 0 < n → ∃ a, ((τ.post.serialInterrupt n).step t a).isSome := by
  intro τ hτ
  have hstep : ∀ (s : ConsoleSys Tid) (a : Act Tid) s', (∃ order, Inv s order) → Step s a s' →
      ∃ order, Inv s' order := by
    rintro s a s' ⟨order, h⟩ hs
    exact h.stepAct hs
  obtain ⟨order, h⟩ := (hrun.invariant (I := fun s => ∃ order, Inv s order) hstep
    ⟨[], init_inv⟩ τ hτ).2
  refine ⟨⟨order, h.linear⟩, fun t htodo hpc => ⟨h.progress htodo hpc, fun n hn => ?_⟩⟩
  have hsent : Inv (τ.post.serialInterrupt n) order :=
    h.rest rfl rfl rfl rfl (fun _ => rfl) (Nat.lt_of_le_of_lt (Nat.sub_le _ _) h.room)
  refine hsent.progress htodo hpc fun hwaits => ?_
  exact absurd hwaits.2.2.2 (by simp [h.serial_room hn])

/-- Two threads print, one of them with a call inside its own, and an interrupt handler, while the
serial port begins to use its queue. -/
def sampleActs : List (Act Bool) :=
  [.serialInitQueue, .thread true (.begin (putbuf [104, 105])),
    .thread false (.begin ⟨[.put .serial 97, .put .vga 97, .acquire, .put .serial 98, .put .vga 98,
      .release, .release], rfl⟩),
    .thread false (.lock .acquire), .thread true (.lock .acquire),
    .thread false (.lock .setHolder), .thread false .run, .thread false .run,
    .interrupt .serial 33, .serial 2, .thread false .run, .thread false .run, .thread false .run,
    .thread false .run, .thread false (.lock .release), .thread false (.lock .up),
    .thread true (.lock .acquire), .thread true (.lock .setHolder), .thread true .run]

example : (Run.trace stepAct init sampleActs).map (fun τ => τ.post.threadText .serial) =
    List.replicate 6 [] ++ List.replicate 5 [97] ++ List.replicate 7 [97, 98] ++
      [[97, 98, 104]] := by
  rfl

theorem console_linearisable_sample : ∃ τ, (Run.trace stepAct init sampleActs).getLast? = some τ ∧
    (∃ order, Linear τ.post order) ∧
    ∀ t, τ.post.todo t ≠ [] → τ.post.lock.pc t ≠ .blocked →
      (¬ τ.post.WaitsForRoom t → ∃ a, (τ.post.step t a).isSome) ∧
      ∀ n, 0 < n → ∃ a, ((τ.post.serialInterrupt n).step t a).isSome :=
  ⟨_, rfl, console_linearisable (Run.of_trace stepAct init sampleActs) _
    (List.mem_of_getLast? rfl)⟩

end ConsoleSys

end OsTools.Kernel

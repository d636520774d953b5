import OsTools.Devices.Intq
/-!
# OsTools.Devices.Serial

The console devices: the transmit side of `devices/serial.c` with its interrupt
handler, and the input buffer of `devices/input.c` that the serial port and the
keyboard fill. `serial_putc` and `input_getc` are called by threads, with
interrupts on or off, and by interrupt handlers.

Both files disable interrupts for the whole of each function, so a call runs
without interruption except where a thread sleeps in an interrupt queue. The
steps of the model end where a call ends or sleeps. These are the only points at
which interrupts can be enabled, since every function restores the level it
found and a thread that sleeps hands the processor to another thread.

`tx` records the bytes written to the transmit register, `accepted` the bytes
whose `serial_putc` has gone through, and `ier` the last value written to the
interrupt enable register. Waiting for the port in `putc_poll` is not modelled.

## Proof shape

The invariant is in two parts. `Core` holds everywhere: the two queues are as
`OsTools.Devices.Intq` wants them, and the bytes sent followed by those queued are the bytes
accepted. `Enabled` holds between steps only: the enable register asks for a transmit
interrupt if there is something to send, and for a receive interrupt if there is room. A
function first changes a queue, which may break `Enabled`, and then calls `serial_notify`,
which repairs it (`Core.serialNotify`); sending alone does not break it, since an interrupt
for an empty queue does no harm (`Sends.enabled`).

Each function has one lemma of this form, and `step_inv` has a case for each step.
-/

namespace OsTools.Devices

open OsTools.Threads

/-- Interrupt when data received. -/
def IER_RECV : UInt8 := 0x01

/-- Interrupt when transmit finishes. -/
def IER_XMIT : UInt8 := 0x02

/-- Transmission mode. -/
inductive Mode
  | uninit
  | poll
  | queue
  deriving DecidableEq

/-- The assertions of the console: those of a queue, and its own. -/
inductive Fault
  | intq (a : Assertion)
  /-- `input_putc`: the buffer is not full. -/
  | inputFull
  /-- `serial_init_queue`: the mode is `POLL`. -/
  | mode
  deriving DecidableEq

/-- The static data of serial.c and input.c. -/
structure Console (Tid : Type*) where
  mode : Mode
  txq : Intq Tid
  /-- `buffer` of input.c. -/
  input : Intq Tid
  ier : UInt8
  tx : List UInt8
  accepted : List UInt8

namespace Console

variable {Tid : Type*}

/-- Before any call: static data is zero, and `input_init` has run. -/
def boot : Console Tid where
  mode := .uninit
  txq := Intq.init fun _ => 0
  input := Intq.init fun _ => 0
  ier := 0
  tx := []
  accepted := []

/-- `write_ier`. -/
def writeIer (s : Console Tid) : Console Tid :=
  let ier := if s.txq.empty then 0 else IER_XMIT
  let ier := if s.input.full then ier else ier ||| IER_RECV
  { s with ier }

/-- `serial_notify`. -/
def serialNotify (s : Console Tid) : Console Tid :=
  match s.mode with
  | .queue => s.writeIer
  | _ => s

/-- `init_poll`, without the line settings. -/
def initPoll (s : Console Tid) : Console Tid :=
  { s with ier := 0, txq := Intq.init s.txq.buf, mode := .poll }

/-- `serial_init_queue`. -/
def serialInitQueue (s : Console Tid) : Except Fault (Console Tid) :=
  let s := if s.mode = .uninit then s.initPoll else s
  if s.mode = .poll then .ok (writeIer { s with mode := .queue })
  else .error .mode

/-- `putc_poll`, of the byte that `intq_getc` returned. -/
def putcPoll (s : Console Tid) (byte : Option UInt8) : Console Tid :=
  { s with tx := s.tx ++ byte.toList }

variable [DecidableEq Tid]

/-- `putc_poll (intq_getc (&txq))`, and the same through the interrupt handler:
the oldest byte of `txq` goes to the transmit register. -/
def sendOldest (s : Console Tid) (ctx : Option Tid) : Except Fault (Console Tid) :=
  match s.txq.intqGetc ctx with
  | .error e => .error (.intq e)
  | .ok (txq, byte) => .ok (putcPoll { s with txq } byte)

/-- What follows `intq_putc` in `serial_putc`, once it has returned. -/
def putcReturns (s : Console Tid) : Intq Tid × Option UInt8 → Console Tid
  | (txq, none) => { s with txq }
  | (txq, some byte) => writeIer { s with txq, accepted := s.accepted ++ [byte] }

/-- The last part of `serial_putc`: queue the byte and update the register. -/
def putcQueue (s : Console Tid) (ctx : Option Tid) (byte : UInt8) :
    Except Fault (Console Tid) :=
  match s.txq.intqPutc ctx byte with
  | .error e => .error (.intq e)
  | .ok r => .ok (s.putcReturns r)

/-- `serial_putc` by a thread or (`none`) an interrupt handler; `off` tells that
interrupts were off at the call. -/
def serialPutc (s : Console Tid) (ctx : Option Tid) (off : Bool) (byte : UInt8) :
    Except Fault (Console Tid) :=
  match s.mode with
  | .uninit =>
      let s := s.initPoll
      .ok { s.putcPoll (some byte) with accepted := s.accepted ++ [byte] }
  | .poll => .ok { s.putcPoll (some byte) with accepted := s.accepted ++ [byte] }
  | .queue =>
      if off && s.txq.full then
        (s.sendOldest ctx).bind fun s => s.putcQueue ctx byte
      else s.putcQueue ctx byte

/-- A thread that slept in `intq_putc` runs on. -/
def serialPutcResume (s : Console Tid) (t : Tid) : Except Fault (Console Tid) :=
  match s.txq.resume t with
  | .error e => .error (.intq e)
  | .ok r => .ok (s.putcReturns r)

/-- A loop that sends bytes of `txq`, for at most `n` passes. -/
def sendLoop (s : Console Tid) (ctx : Option Tid) : Nat → Except Fault (Console Tid)
  | 0 => .ok s
  | n + 1 =>
      if s.txq.empty then .ok s
      else (s.sendOldest ctx).bind fun s => s.sendLoop ctx n

/-- `serial_flush`: `txq` holds fewer than `INTQ_BUFSIZE` bytes. -/
def serialFlush (s : Console Tid) (ctx : Option Tid) : Except Fault (Console Tid) :=
  s.sendLoop ctx INTQ_BUFSIZE

/-- `input_putc`, called by interrupt handlers. -/
def inputPutc (s : Console Tid) (key : UInt8) : Except Fault (Console Tid) :=
  if s.input.full then .error .inputFull
  else
    match s.input.intqPutc none key with
    | .error e => .error (.intq e)
    | .ok (input, _) => .ok (serialNotify { s with input })

/-- What follows `intq_getc` in `input_getc`, once it has returned. -/
def getcReturns (s : Console Tid) : Intq Tid × Option UInt8 → Console Tid
  | (input, none) => { s with input }
  | (input, some _) => serialNotify { s with input }

/-- `input_getc`. -/
def inputGetc (s : Console Tid) (t : Tid) : Except Fault (Console Tid) :=
  match s.input.intqGetc (some t) with
  | .error e => .error (.intq e)
  | .ok r => .ok (s.getcReturns r)

/-- A thread that slept in `intq_getc` runs on. -/
def inputGetcResume (s : Console Tid) (t : Tid) : Except Fault (Console Tid) :=
  match s.input.resume t with
  | .error e => .error (.intq e)
  | .ok r => .ok (s.getcReturns r)

/-- The receive loop of `serial_interrupt`; the list is what the port delivers
until its data-ready bit is clear. -/
def receiveLoop (s : Console Tid) : List UInt8 → Except Fault (Console Tid)
  | [] => .ok s
  | byte :: rest =>
      if s.input.full then .ok s
      else (s.inputPutc byte).bind fun s => s.receiveLoop rest

/-- `serial_interrupt`: the port delivers `received` and is ready to transmit
`ready` times. -/
def serialInterrupt (s : Console Tid) (received : List UInt8) (ready : Nat) :
    Except Fault (Console Tid) :=
  (s.receiveLoop received).bind fun s =>
    (s.sendLoop none ready).bind fun s => .ok s.writeIer

/-- `keyboard_interrupt`, where it has a key. -/
def keyboardInterrupt (s : Console Tid) (key : UInt8) : Except Fault (Console Tid) :=
  if s.input.full then .ok s else s.inputPutc key

end Console

/-- The steps of the console. -/
inductive ConsoleAct (Tid : Type*)
  | initQueue
  | putc (ctx : Option Tid) (off : Bool) (byte : UInt8)
  | putcResume (t : Tid)
  | flush (ctx : Option Tid)
  | getc (t : Tid)
  | getcResume (t : Tid)
  | interrupt (received : List UInt8) (ready : Nat)
  | key (byte : UInt8)
  deriving DecidableEq

namespace Console

variable {Tid : Type*} [DecidableEq Tid]

/-- The thread is in none of the console's functions. -/
def idle (s : Console Tid) (t : Tid) : Bool := s.txq.pc t = .out ∧ s.input.pc t = .out

/-- The caller is a thread outside the console's functions, or a handler. -/
def mayCall (s : Console Tid) : Option Tid → Bool
  | none => true
  | some t => s.idle t

/-- One step; none where the caller is not at that point of its code. Handlers
run with interrupts off, and the serial handler once it is registered. -/
def step (s : Console Tid) : ConsoleAct Tid → Option (Except Fault (Console Tid))
  | .initQueue => some s.serialInitQueue
  | .putc ctx off byte =>
      if s.mayCall ctx ∧ (ctx = none → off = true) then some (s.serialPutc ctx off byte) else none
  | .putcResume t => if s.txq.runnable t then some (s.serialPutcResume t) else none
  | .flush ctx => if s.mayCall ctx then some (s.serialFlush ctx) else none
  | .getc t => if s.idle t then some (s.inputGetc t) else none
  | .getcResume t => if s.input.runnable t then some (s.inputGetcResume t) else none
  | .interrupt received ready =>
      if s.mode = .queue then some (s.serialInterrupt received ready) else none
  | .key byte => some (s.keyboardInterrupt byte)

/-- The steps in which no assertion fails. -/
def advance (s : Console Tid) (a : ConsoleAct Tid) : Option (Console Tid) :=
  match s.step a with
  | some (.ok s') => some s'
  | _ => none

/-- The same as a relation. -/
def Step (s : Console Tid) (a : ConsoleAct Tid) (s' : Console Tid) : Prop :=
  s.advance a = some s'

/-! ### The invariant -/

/-- The enable register lets the device interrupt for what there is to do. -/
structure Enabled (s : Console Tid) : Prop where
  xmit : s.txq.contents ≠ [] → s.ier &&& IER_XMIT ≠ 0
  recv : s.input.full = false → s.ier &&& IER_RECV ≠ 0

variable [Fintype Tid]

/-- What every function keeps, also before it updates the enable register: the
two queues, which functions use them, and where the accepted bytes are. -/
structure Core (s : Console Tid) : Prop where
  txq : s.txq.Inv
  input : s.input.Inv
  putcs : ∀ t op, (s.txq.pc t).op = some op → ∃ byte, op = .putc byte
  log : s.tx ++ s.txq.contents = s.accepted
  polling : s.mode ≠ .queue → s.txq.contents = [] ∧ ∀ t, s.txq.pc t = .out

/-- The invariant between steps. -/
structure Inv (s : Console Tid) : Prop where
  core : Core s
  enabled : s.mode = .queue → Enabled s

omit [DecidableEq Tid] in
theorem boot_inv : Inv (boot : Console Tid) where
  core := {
    txq := Intq.init_inv _
    input := Intq.init_inv _
    putcs := fun t op h => by cases h
    log := rfl
    polling := fun _ => ⟨rfl, fun _ => rfl⟩ }
  enabled := fun h => by cases h

/-! ### The enable register -/

omit [DecidableEq Tid] [Fintype Tid] in
theorem empty_false_of_ne {b : IntqBuffer} (h : b.contents ≠ []) : b.empty = false := by
  cases hempty : b.empty with
  | false => rfl
  | true =>
      refine absurd ?_ h
      unfold IntqBuffer.contents
      rw [of_decide_eq_true hempty]
      exact Ring.contents_empty _ _ _

omit [DecidableEq Tid] [Fintype Tid] in
theorem writeIer_enabled (s : Console Tid) : Enabled s.writeIer where
  xmit := fun h => by
    have hempty : s.txq.empty = false := empty_false_of_ne h
    cases hfull : s.input.full <;> simp only [writeIer, hfull, hempty] <;> decide
  recv := fun h => by
    have hfull : s.input.full = false := h
    cases hempty : s.txq.empty <;> simp only [writeIer, hfull, hempty] <;> decide

omit [DecidableEq Tid] in
theorem Core.writeIer {s : Console Tid} (hs : Core s) : Core s.writeIer :=
  ⟨hs.txq, hs.input, hs.putcs, hs.log, hs.polling⟩

omit [DecidableEq Tid] in
/-- `serial_notify` makes the register right in the mode in which it matters. -/
theorem Core.serialNotify {s : Console Tid} (hs : Core s) :
    Inv s.serialNotify ∧ s.serialNotify.mode = s.mode := by
  unfold Console.serialNotify
  cases hmode : s.mode with
  | queue => exact ⟨⟨hs.writeIer, fun _ => s.writeIer_enabled⟩, hmode⟩
  | uninit => exact ⟨⟨hs, fun h => by rw [hmode] at h; cases h⟩, hmode⟩
  | poll => exact ⟨⟨hs, fun h => by rw [hmode] at h; cases h⟩, hmode⟩

/-! ### The transmit side -/

/-- The part of the console that sending leaves alone. -/
structure Sends (s s' : Console Tid) : Prop where
  mode : s'.mode = s.mode
  input : s'.input = s.input
  ier : s'.ier = s.ier
  length_le : s'.txq.contents.length ≤ s.txq.contents.length
  pc : ∀ t, s.txq.pc t = .out → s'.txq.pc t = .out

/-- The oldest byte of `txq` moves to the end of `tx`. -/
theorem sendOldest_spec {s : Console Tid} (hs : Core s) (ctx : Option Tid)
    (hne : s.txq.empty = false) :
    ∃ s', s.sendOldest ctx = .ok s' ∧ Core s' ∧ Sends s s' ∧
      s'.txq.contents.length + 1 = s.txq.contents.length := by
  have hmet : s.txq.met IntqOp.getc.needs = true := by
    show (!s.txq.empty) = true
    rw [hne]
    rfl
  obtain ⟨q', hcall, hq', hbuffer, hops⟩ := Intq.intqCall_returns hs.txq ctx hmet
  have hcontents := IntqBuffer.contents_getc hs.txq.buffer hmet
  rw [← hbuffer] at hcontents
  have hlength : q'.contents.length + 1 = s.txq.contents.length := by
    rw [hcontents, List.length_cons]
  refine ⟨{ s with txq := q', tx := s.tx ++ [(s.txq.access .getc).1] }, ?_, ?_, ?_, hlength⟩
  · unfold sendOldest Intq.intqGetc
    rw [hcall]
    rfl
  · refine ⟨hq', hs.input, fun t op h => hs.putcs t op ((hops t).symm.trans h), ?_, ?_⟩
    · show (s.tx ++ [_]) ++ q'.contents = s.accepted
      rw [← hs.log, hcontents, List.append_assoc]
      rfl
    · intro hmode
      have hnil := (hs.polling hmode).1
      rw [hcontents] at hnil
      cases hnil
  · exact ⟨rfl, rfl, rfl, by show q'.contents.length ≤ _; omega,
      fun t ht => Intq.pc_eq_out ((hops t).trans (by rw [ht]; rfl))⟩

/-- The loop sends the oldest bytes, all of them if it may go on that long. -/
theorem sendLoop_spec {s : Console Tid} (hs : Core s) (ctx : Option Tid) (n : Nat) :
    ∃ s', s.sendLoop ctx n = .ok s' ∧ Core s' ∧ Sends s s' ∧
      (s.txq.contents.length ≤ n → s'.txq.contents = []) := by
  induction n generalizing s with
  | zero =>
      exact ⟨s, rfl, hs, ⟨rfl, rfl, rfl, Nat.le_refl _, fun _ => id⟩,
        fun h => List.length_eq_zero_iff.mp (Nat.le_zero.mp h)⟩
  | succ n ih =>
      unfold sendLoop
      cases hempty : s.txq.empty with
      | true =>
          exact ⟨s, rfl, hs, ⟨rfl, rfl, rfl, Nat.le_refl _, fun _ => id⟩,
            fun _ => (IntqBuffer.empty_iff hs.txq.buffer).mp hempty⟩
      | false =>
          obtain ⟨s₁, hsend, hs₁, hsends, hlength⟩ := sendOldest_spec hs ctx hempty
          obtain ⟨s', hloop, hs', hsends', hall⟩ := ih hs₁
          refine ⟨s', ?_, hs', ⟨hsends'.mode.trans hsends.mode, hsends'.input.trans hsends.input,
            hsends'.ier.trans hsends.ier, hsends'.length_le.trans hsends.length_le,
            fun t ht => hsends'.pc t (hsends.pc t ht)⟩, fun h => hall (by omega)⟩
          rw [hsend]
          exact hloop

/-- `serial_flush` empties the transmit queue. -/
theorem serialFlush_spec {s : Console Tid} (hs : Core s) (ctx : Option Tid) :
    ∃ s', s.serialFlush ctx = .ok s' ∧ Core s' ∧ Sends s s' ∧ s'.txq.contents = [] := by
  obtain ⟨s', hloop, hs', hsends, hall⟩ := sendLoop_spec hs ctx INTQ_BUFSIZE
  have hle := hs.txq.buffer.contents_length_le
  exact ⟨s', hloop, hs', hsends, hall (hle.trans (Nat.sub_le _ _))⟩

omit [DecidableEq Tid] in
/-- After `intq_putc`: the byte is accepted and the register updated, or the
thread sleeps and nothing has changed. -/
theorem putcReturns_inv {s : Console Tid} (hs : Core s) (hmode : s.mode = .queue)
    (hier : s.Enabled) {q' : Intq Tid} {byte : UInt8} {r : Option UInt8} (hq' : q'.Inv)
    (hmoves : s.txq.Moves q' (.putc byte) r) :
    Inv (s.putcReturns (q', r)) ∧ (s.putcReturns (q', r)).mode = .queue := by
  have hputcs : ∀ t op, (q'.pc t).op = some op → ∃ b, op = .putc b := fun t op h => by
    rcases hmoves.ops t op h with hold | hnew
    · exact hs.putcs t op hold
    · exact ⟨byte, hnew⟩
  obtain ⟨hmet, rfl, hbuffer⟩ | ⟨rfl, hbuffer⟩ := hmoves.buffer
  · have hcontents : q'.contents = s.txq.contents ++ [byte] := by
      rw [hbuffer]
      exact IntqBuffer.contents_putc hs.txq.buffer hmet
    have hcore : Core { s with txq := q', accepted := s.accepted ++ [byte] } := by
      refine ⟨hq', hs.input, hputcs, ?_, fun h => absurd hmode h⟩
      show s.tx ++ q'.contents = s.accepted ++ [byte]
      rw [hcontents, ← List.append_assoc, hs.log]
    exact ⟨⟨hcore.writeIer, fun _ => writeIer_enabled _⟩, hmode⟩
  · have hcontents : q'.contents = s.txq.contents := by rw [hbuffer]
    refine ⟨⟨⟨hq', hs.input, hputcs, ?_, fun h => absurd hmode h⟩, fun _ => ⟨fun h => ?_, hier.recv⟩⟩,
      hmode⟩
    · show s.tx ++ q'.contents = s.accepted
      rw [hcontents]
      exact hs.log
    · have hne : q'.contents ≠ [] := h
      rw [hcontents] at hne
      exact hier.xmit hne

omit [DecidableEq Tid] [Fintype Tid] in
/-- Sending needs no update of the register: it only empties `txq`. -/
theorem Sends.enabled {s s' : Console Tid} (hsends : Sends s s') (hier : s.Enabled) :
    s'.Enabled where
  xmit := fun h => by
    rw [hsends.ier]
    refine hier.xmit fun hnil => h (List.length_eq_zero_iff.mp ?_)
    have hle := hsends.length_le
    rw [hnil] at hle
    exact Nat.le_zero.mp hle
  recv := fun h => by
    rw [hsends.ier]
    rw [hsends.input] at h
    exact hier.recv h

theorem putcQueue_inv {s s' : Console Tid} (hs : Inv s) (hmode : s.mode = .queue)
    {ctx : Option Tid} (hctx : ∀ t, ctx = some t → s.txq.pc t = .out) {byte : UInt8}
    (h : s.putcQueue ctx byte = .ok s') : Inv s' := by
  unfold putcQueue at h
  cases hcall : s.txq.intqPutc ctx byte with
  | error e =>
      rw [hcall] at h
      cases h
  | ok r =>
      rw [hcall] at h
      cases h
      obtain ⟨q', r⟩ := r
      obtain ⟨hq', hmoves⟩ := Intq.intqCall_ok hs.core.txq hctx hcall
      exact (putcReturns_inv hs.core hmode (hs.enabled hmode) hq' hmoves).1

omit [DecidableEq Tid] in
/-- In the polling mode the byte goes straight to the register. -/
theorem putcPoll_inv {s : Console Tid} (hs : Core s) (hmode : s.mode ≠ .queue) (byte : UInt8) :
    Inv { s.putcPoll (some byte) with accepted := s.accepted ++ [byte] } := by
  have hnil := (hs.polling hmode).1
  refine ⟨⟨hs.txq, hs.input, hs.putcs, ?_, fun _ => hs.polling hmode⟩, fun h => absurd h hmode⟩
  show (s.tx ++ [byte]) ++ s.txq.contents = s.accepted ++ [byte]
  rw [← hs.log, hnil, List.append_nil, List.append_nil]

omit [DecidableEq Tid] in
theorem initPoll_core {s : Console Tid} (hs : Core s) (hmode : s.mode ≠ .queue) :
    Core s.initPoll := by
  refine ⟨Intq.init_inv _, hs.input, fun t op h => (by cases h), ?_, fun _ => ⟨rfl, fun _ => rfl⟩⟩
  show s.tx ++ [] = s.accepted
  rw [← hs.log, (hs.polling hmode).1]

/-- `serial_putc` keeps the invariant. A byte goes to the port at once or into the queue;
where the queue is full and interrupts are off, the oldest one is sent first, so that a
handler never waits. -/
theorem serialPutc_inv {s s' : Console Tid} (hs : Inv s) {ctx : Option Tid} {off : Bool}
    {byte : UInt8} (hctx : ∀ t, ctx = some t → s.txq.pc t = .out)
    (h : s.serialPutc ctx off byte = .ok s') : Inv s' := by
  unfold serialPutc at h
  cases hmode : s.mode with
  | uninit =>
      rw [hmode] at h
      cases h
      exact putcPoll_inv (initPoll_core hs.core (by rw [hmode]; decide))
        (show Mode.poll ≠ .queue by decide) byte
  | poll =>
      rw [hmode] at h
      cases h
      exact putcPoll_inv hs.core (by rw [hmode]; decide) byte
  | queue =>
      rw [hmode] at h
      dsimp only at h
      split at h
      · -- interrupts off and the queue full: one byte is polled out to make room
        rename_i hfull
        have hfull : s.txq.full = true := (Bool.and_eq_true_iff.mp hfull).2
        have hne : s.txq.empty = false := by
          refine empty_false_of_ne fun hnil => ?_
          have hcount := congrArg List.length hnil
          rw [IntqBuffer.contents, Ring.length_contents,
            (Ring.count_eq_full hs.core.txq.buffer.head_lt hs.core.txq.buffer.tail_lt).mpr
              (of_decide_eq_true hfull)] at hcount
          cases hcount
        obtain ⟨s₁, hsend, hs₁, hsends, -⟩ := sendOldest_spec hs.core ctx hne
        rw [hsend] at h
        exact putcQueue_inv ⟨hs₁, fun _ => hsends.enabled (hs.enabled hmode)⟩
          (hsends.mode.trans hmode) (fun t ht => hsends.pc t (hctx t ht)) h
      · exact putcQueue_inv hs hmode hctx h

theorem serialPutcResume_inv {s s' : Console Tid} (hs : Inv s) {t : Tid}
    (hrun : s.txq.runnable t = true) (h : s.serialPutcResume t = .ok s') : Inv s' := by
  have hmode : s.mode = .queue := by
    by_contra hmode
    have hout := (hs.core.polling hmode).2 t
    simp [Intq.runnable, hout] at hrun
  unfold serialPutcResume at h
  cases hcall : s.txq.resume t with
  | error e =>
      rw [hcall] at h
      cases h
  | ok r =>
      rw [hcall] at h
      cases h
      obtain ⟨q', r⟩ := r
      obtain ⟨hq', op, hop, hmoves⟩ := Intq.resume_ok hs.core.txq hrun hcall
      obtain ⟨byte, rfl⟩ := hs.core.putcs t op hop
      exact (putcReturns_inv hs.core hmode (hs.enabled hmode) hq' hmoves).1

/-! ### The receive side -/

omit [DecidableEq Tid] in
/-- A change of the input buffer followed by `serial_notify`. -/
theorem notify_inv {s : Console Tid} (hs : Core s) {q' : Intq Tid} (hq' : q'.Inv) :
    Inv (serialNotify { s with input := q' }) := by
  have hcore : Core { s with input := q' } := ⟨hs.txq, hq', hs.putcs, hs.log, hs.polling⟩
  exact hcore.serialNotify.1

theorem inputPutc_inv {s s' : Console Tid} (hs : Core s) {key : UInt8}
    (h : s.inputPutc key = .ok s') : Inv s' := by
  unfold inputPutc at h
  split at h
  · cases h
  · cases hcall : s.input.intqPutc none key with
    | error e =>
        rw [hcall] at h
        cases h
    | ok r =>
        rw [hcall] at h
        cases h
        obtain ⟨q', r⟩ := r
        obtain ⟨hq', -⟩ := Intq.intqCall_ok hs.input (fun t ht => (by cases ht)) hcall
        exact notify_inv hs hq'

omit [DecidableEq Tid] in
/-- After `intq_getc`: the register is updated, or the thread sleeps and the
buffer is as it was. -/
theorem getcReturns_inv {s : Console Tid} (hs : Inv s) {q' : Intq Tid} {op : IntqOp}
    {r : Option UInt8} (hq' : q'.Inv) (hmoves : s.input.Moves q' op r) :
    Inv (s.getcReturns (q', r)) := by
  obtain ⟨-, rfl, -⟩ | ⟨rfl, hbuffer⟩ := hmoves.buffer
  · exact notify_inv hs.core hq'
  · have hcore : Core { s with input := q' } :=
      ⟨hs.core.txq, hq', hs.core.putcs, hs.core.log, hs.core.polling⟩
    refine ⟨hcore, fun hmode => ⟨(hs.enabled hmode).xmit, fun hfull => ?_⟩⟩
    have hfull : q'.full = false := hfull
    rw [hbuffer] at hfull
    exact (hs.enabled hmode).recv hfull

theorem inputGetc_inv {s s' : Console Tid} (hs : Inv s) {t : Tid} (ht : s.input.pc t = .out)
    (h : s.inputGetc t = .ok s') : Inv s' := by
  unfold inputGetc at h
  cases hcall : s.input.intqGetc (some t) with
  | error e =>
      rw [hcall] at h
      cases h
  | ok r =>
      rw [hcall] at h
      cases h
      obtain ⟨q', r⟩ := r
      obtain ⟨hq', hmoves⟩ := Intq.intqCall_ok hs.core.input
        (fun u hu => by rw [← Option.some.inj hu]; exact ht) hcall
      exact getcReturns_inv hs hq' hmoves

theorem inputGetcResume_inv {s s' : Console Tid} (hs : Inv s) {t : Tid}
    (hrun : s.input.runnable t = true) (h : s.inputGetcResume t = .ok s') : Inv s' := by
  unfold inputGetcResume at h
  cases hcall : s.input.resume t with
  | error e =>
      rw [hcall] at h
      cases h
  | ok r =>
      rw [hcall] at h
      cases h
      obtain ⟨q', r⟩ := r
      obtain ⟨hq', op, -, hmoves⟩ := Intq.resume_ok hs.core.input hrun hcall
      exact getcReturns_inv hs hq' hmoves

theorem receiveLoop_core {s s' : Console Tid} (hs : Core s) {received : List UInt8}
    (h : s.receiveLoop received = .ok s') : Core s' := by
  induction received generalizing s with
  | nil =>
      cases h
      exact hs
  | cons byte rest ih =>
      unfold receiveLoop at h
      split at h
      · cases h
        exact hs
      · cases hput : s.inputPutc byte with
        | error e =>
            rw [hput] at h
            cases h
        | ok s₁ =>
            rw [hput] at h
            exact ih (inputPutc_inv hs hput).core h

theorem serialInterrupt_inv {s s' : Console Tid} (hs : Core s) {received : List UInt8} {ready : Nat}
    (h : s.serialInterrupt received ready = .ok s') : Inv s' := by
  unfold serialInterrupt at h
  cases hreceive : s.receiveLoop received with
  | error e =>
      rw [hreceive] at h
      cases h
  | ok s₁ =>
      obtain ⟨s₂, hsend, hs₂, -, -⟩ := sendLoop_spec (receiveLoop_core hs hreceive) none ready
      rw [hreceive] at h
      dsimp only [Except.bind] at h
      rw [hsend] at h
      cases h
      exact ⟨hs₂.writeIer, fun _ => writeIer_enabled _⟩

/-! ### Runs -/

omit [DecidableEq Tid] in
theorem queueMode_inv {s : Console Tid} (hs : Core s) :
    Inv (writeIer { s with mode := .queue }) := by
  refine ⟨⟨hs.txq, hs.input, hs.putcs, hs.log, fun hne => ?_⟩, fun _ => writeIer_enabled _⟩
  exact absurd rfl hne

omit [DecidableEq Tid] in
theorem serialInitQueue_inv {s s' : Console Tid} (hs : Inv s) (h : s.serialInitQueue = .ok s') :
    Inv s' := by
  unfold serialInitQueue at h
  cases hmode : s.mode with
  | uninit =>
      rw [if_pos hmode] at h
      cases h
      exact queueMode_inv (initPoll_core hs.core (by rw [hmode]; decide))
  | poll =>
      have hne : s.mode ≠ .uninit := by rw [hmode]; decide
      rw [if_neg hne] at h
      dsimp only at h
      rw [if_pos hmode] at h
      cases h
      exact queueMode_inv hs.core
  | queue =>
      have hne : s.mode ≠ .uninit := by rw [hmode]; decide
      have hne' : s.mode ≠ .poll := by rw [hmode]; decide
      rw [if_neg hne] at h
      dsimp only at h
      rw [if_neg hne'] at h
      cases h

omit [DecidableEq Tid] [Fintype Tid] in
theorem out_of_mayCall {s : Console Tid} {ctx : Option Tid} (h : s.mayCall ctx = true) (t : Tid)
    (ht : ctx = some t) : s.txq.pc t = .out ∧ s.input.pc t = .out := by
  rw [ht] at h
  exact of_decide_eq_true h

/-- Every step keeps the invariant: a case for each of them, by the lemma about the function
that it calls. -/
theorem step_inv {s s' : Console Tid} (hs : Inv s) {a : ConsoleAct Tid}
    (h : s.step a = some (.ok s')) : Inv s' := by
  cases a with
  | initQueue => exact serialInitQueue_inv hs (Option.some.inj h)
  | putc ctx off byte =>
      simp only [step] at h
      split at h
      · rename_i hcall
        exact serialPutc_inv hs (fun t ht => (out_of_mayCall hcall.1 t ht).1) (Option.some.inj h)
      · cases h
  | putcResume t =>
      simp only [step] at h
      split at h
      · rename_i hrun
        exact serialPutcResume_inv hs hrun (Option.some.inj h)
      · cases h
  | flush ctx =>
      simp only [step] at h
      split at h
      · obtain ⟨s₁, hflush, hs₁, hsends, -⟩ := serialFlush_spec hs.core ctx
        rw [hflush] at h
        cases h
        exact ⟨hs₁, fun hmode => hsends.enabled (hs.enabled (hsends.mode.symm.trans hmode))⟩
      · cases h
  | getc t =>
      simp only [step] at h
      split at h
      · rename_i hidle
        exact inputGetc_inv hs (of_decide_eq_true hidle).2 (Option.some.inj h)
      · cases h
  | getcResume t =>
      simp only [step] at h
      split at h
      · rename_i hrun
        exact inputGetcResume_inv hs hrun (Option.some.inj h)
      · cases h
  | interrupt received ready =>
      simp only [step] at h
      split at h
      · exact serialInterrupt_inv hs.core (Option.some.inj h)
      · cases h
  | key byte =>
      simp only [step, keyboardInterrupt] at h
      split at h
      · cases h
        exact hs
      · exact inputPutc_inv hs.core (Option.some.inj h)

/-- **No byte is lost and no interrupt is missed.** In every run of the console
in which no assertion fails, the bytes written to the transmit register followed
by the contents of `txq` are the accepted bytes in their order; and after
`serial_init_queue`, the enable register has the transmit bit if `txq` is not
empty and the receive bit if the input buffer is not full. -/
theorem console_run_sound {ts : List (Transition (Console Tid) (ConsoleAct Tid))}
    (hrun : Run Step boot ts) :
    ∀ τ ∈ ts, τ.post.tx ++ τ.post.txq.contents = τ.post.accepted ∧
      (τ.post.mode = .queue → τ.post.Enabled) := by
  have hkeep : ∀ (s : Console Tid) a s', Inv s → Step s a s' → Inv s' := by
    intro s a s' hs h
    unfold Step advance at h
    split at h
    · rename_i s₁ hstep
      cases h
      exact step_inv hs hstep
    · cases h
  intro τ hτ
  obtain ⟨-, hpost⟩ := hrun.invariant (I := Inv) hkeep boot_inv τ hτ
  exact ⟨hpost.core.log, hpost.enabled⟩

/-- A sender polls, the port is switched to interrupts, two threads use it, and
the port takes a byte and delivers one. -/
def sampleActs : List (ConsoleAct Bool) :=
  [.putc (some true) false 104, .initQueue, .putc (some true) false 105, .getc false,
    .putc none true 10, .interrupt [120] 1, .getcResume false, .flush none]

theorem console_run_sound_sample :
    (Run.trace advance (boot : Console Bool) sampleActs).length = 8 ∧
    ∀ τ ∈ Run.trace advance (boot : Console Bool) sampleActs,
      τ.post.tx ++ τ.post.txq.contents = τ.post.accepted ∧
      (τ.post.mode = .queue → τ.post.Enabled) :=
  ⟨by decide, console_run_sound (Run.of_trace advance boot sampleActs)⟩

example : (Run.trace advance (boot : Console Bool) sampleActs).map
      (fun τ => (τ.post.tx, τ.post.ier)) =
    [([104], 0), ([104], 1), ([104], 3), ([104], 3), ([104], 3), ([104, 105], 3),
      ([104, 105], 3), ([104, 105, 10], 3)] := by decide

end Console

end OsTools.Devices

import Mathlib.Algebra.Group.Nat.Defs
import OsTools.Threads.Scheduler
/-!
# OsTools.Threads.Preempt

Preemption: `intr_handler` of `threads/interrupt.c` for external interrupts,
`timer_interrupt` of `devices/timer.c` and `thread_tick`, over the scheduler, with the
interrupt flag of the processor and the acknowledgements to the interrupt controllers.

The flag (`intrLevel`) says whether an external interrupt can arrive at all: the gate
clears it and `iret` brings it back. A thread may switch it whenever it runs, which
is more than the kernel's threads do. A thread that leaves the processor comes back with
the level that its own code restores then, which is kept for it in `resume`: on for a new
thread (`kernel_thread`) and for one that an interrupt preempted, off inside of
`thread_block`, and as it was for `thread_yield`. A failed assertion gives no result.

The handlers of other devices only wake up threads; what they do besides is left out, as is
the message for a vector without a handler. The counters of ticks are numbers here: they
are `long long` in the source, which `interrupts_accounted` keeps them in.

The proofs rest on one lemma about a step, `Inv.step`: it says what becomes of the ready
list and of the time slice (`Effect`) and what is counted and acknowledged. Both results,
the accounts and the bound of round robin, follow from it by induction over the run.
-/

namespace OsTools.Threads

/-- `TIME_SLICE`. -/
def TIME_SLICE : Nat := 4

/-- `enum intr_level`. -/
inductive IntrLevel
  | off
  | on
  deriving DecidableEq

/-- The scheduler with the globals that interrupts use. `intrLevel` is the interrupt flag,
`resume` the level with which a thread goes on when it is dispatched again, `pcb` are the
threads with a process and `outs` the bytes written to ports so far. -/
structure Cpu where
  sched : Sched
  intrLevel : IntrLevel
  resume : Nat → IntrLevel
  ticks : Nat
  threadTicks : Nat
  idleTicks : Nat
  kernelTicks : Nat
  userTicks : Nat
  pcb : Nat → Bool
  inExternalIntr : Bool
  yieldOnReturn : Bool
  outs : List (Nat × Nat)

namespace Cpu

def outb (c : Cpu) (port byte : Nat) : Cpu := { c with outs := c.outs ++ [(port, byte)] }

def intrEnable (c : Cpu) : Option Cpu :=
  if c.inExternalIntr then none else some { c with intrLevel := .on }

def intrDisable (c : Cpu) : Cpu := { c with intrLevel := .off }

def intrSetLevel (c : Cpu) : IntrLevel → Option Cpu
  | .on => c.intrEnable
  | .off => some c.intrDisable

/-- The page of the thread that an operation creates. -/
def created : Sched.Op → Option Nat
  | .create page => page
  | .createBegin page => some page
  | _ => none

/-- A new thread has no process and will start in `kernel_thread`. -/
def startThread (c : Cpu) : Option Nat → Cpu
  | none => c
  | some page =>
      { c with
        pcb := Function.update c.pcb page false
        resume := Function.update c.resume page .on }

/-- `thread_switch_tail` once the scheduler has switched from `cur`: a new time slice begins,
and the thread that runs restores its level. `cur` will go on with `back`. -/
def resumeThread (c : Cpu) (cur : Nat) (back : IntrLevel) : Option Cpu :=
  let c := { c with threadTicks := 0, resume := Function.update c.resume cur back }
  c.intrSetLevel (c.resume c.sched.current)

/-- An operation of the scheduler, after which its caller goes on with `back` if it was
switched away. The operations run with interrupts off, as `thread_block`, `thread_enqueue`,
`schedule` and `thread_switch_tail` assert; all of them see to it themselves, except for
`thread_block`. -/
def op (c : Cpu) (o : Sched.Op) (back : IntrLevel) : Option Cpu :=
  let old := c.intrLevel
  let c := (if o = .block then c else c.intrDisable).startThread (created o)
  if c.intrLevel = .off then
    (c.sched.step o).bind fun sched =>
      if o.schedules then { c with sched }.resumeThread c.sched.current back
      else { c with sched }.intrSetLevel old
  else none

/-- The level with which the caller of an operation goes on: `thread_block` leaves it off,
and so it is in the loop of `sema_down`. -/
def back (c : Cpu) : Sched.Op → IntrLevel
  | .block | .semaDown _ => .off
  | _ => c.intrLevel

def intrYieldOnReturn (c : Cpu) : Option Cpu :=
  if c.inExternalIntr then some { c with yieldOnReturn := true } else none

def threadTick (c : Cpu) : Option Cpu := do
  let t ← c.sched.threadCurrent
  let c :=
    if c.sched.idleThread = some t then { c with idleTicks := c.idleTicks + 1 }
    else if c.pcb t then { c with userTicks := c.userTicks + 1 }
    else { c with kernelTicks := c.kernelTicks + 1 }
  let c := { c with threadTicks := c.threadTicks + 1 }
  if c.threadTicks ≥ TIME_SLICE then c.intrYieldOnReturn else some c

def timerInterrupt (c : Cpu) : Option Cpu := { c with ticks := c.ticks + 1 }.threadTick

/-- The operations that other handlers use. -/
def isWakeUp : Sched.Op → Bool
  | .unblock _ | .semaUp _ => true
  | _ => false

/-- A device's handler, by the threads that it wakes up. -/
def deviceInterrupt (c : Cpu) : List Sched.Op → Option Cpu
  | [] => some c
  | o :: os =>
      if isWakeUp o then (c.op o (c.back o)).bind fun c => c.deviceInterrupt os else none

/-- The call of `intr_handlers[vec_no]`. -/
def handler (c : Cpu) (vecNo : Nat) (wakes : List Sched.Op) : Option Cpu :=
  if vecNo = 0x20 then c.timerInterrupt else c.deviceInterrupt wakes

def picEndOfInterrupt (c : Cpu) (irq : Nat) : Option Cpu :=
  if 0x20 ≤ irq ∧ irq < 0x30 then
    let c := c.outb 0x20 0x20
    -- Acknowledge slave PIC if this is a slave interrupt.
    some (if 0x28 ≤ irq then c.outb 0xa0 0x20 else c)
  else none

/-- `thread_yield`, which must not be called by a handler. -/
def threadYield (c : Cpu) (back : IntrLevel) : Option Cpu :=
  if c.inExternalIntr then none else c.op .yield back

/-- `intr_handler` for an external interrupt, with the threads that its handler wakes up
if it is not the timer's, and the `iret` behind it: the interrupted thread had interrupts
on, whether it goes on at once or is preempted first. -/
def intrHandler (c : Cpu) (vecNo : Nat) (wakes : List Sched.Op) : Option Cpu :=
  if ¬ (0x20 ≤ vecNo ∧ vecNo < 0x30) ∨ c.intrLevel = .on ∨ c.inExternalIntr then none
  else do
    let c := { c with inExternalIntr := true, yieldOnReturn := false }
    let c ← c.handler vecNo wakes
    if c.intrLevel = .on ∨ ¬ c.inExternalIntr then none
    else
      let c ← { c with inExternalIntr := false }.picEndOfInterrupt vecNo
      if c.yieldOnReturn then c.threadYield .on else some { c with intrLevel := .on }

/-- `setLevel` is a call of `intr_set_level`, `setPcb` the assignment to `pcb` when a process
starts or exits. -/
inductive Act
  | op (o : Sched.Op)
  | setLevel (level : IntrLevel)
  | setPcb (b : Bool)
  | interrupt (vecNo : Nat) (wakes : List Sched.Op)
  deriving DecidableEq

def tick : Act := .interrupt 0x20 []

def step (c : Cpu) : Act → Option Cpu
  | .op o => if c.inExternalIntr then none else c.op o (c.back o)
  | .setLevel level => c.intrSetLevel level
  | .setPcb b => some { c with pcb := Function.update c.pcb c.sched.current b }
  | .interrupt vecNo wakes =>
      -- the gate is an interrupt gate
      if c.intrLevel = .on then c.intrDisable.intrHandler vecNo wakes else none

def Step (c : Cpu) (a : Act) (c' : Cpu) : Prop := c.step a = some c'

/-- The timer interrupts. -/
def Act.isTick : Act → Bool
  | .interrupt vecNo _ => vecNo = 0x20
  | _ => false

/-- The external interrupts. -/
def Act.vec : Act → Option Nat
  | .interrupt vecNo _ => some vecNo
  | _ => none

/-- What has to be written for a vector: the end of interrupt goes to the first controller,
and from `0x28` on to the second one too. -/
def endOfInterrupt (vecNo : Nat) : List (Nat × Nat) :=
  (0x20, 0x20) :: if 0x28 ≤ vecNo then [(0xa0, 0x20)] else []

/-- What a run has written when each of its external interrupts was acknowledged. -/
def acknowledged (ts : List (Transition Cpu Act)) : List (Nat × Nat) :=
  (ts.filterMap fun τ => τ.label.vec).flatMap endOfInterrupt

/-- After `thread_init`, on the page `main`. -/
def boot (main : Nat) : Cpu where
  sched := Sched.threadInit main
  intrLevel := .off
  resume := fun _ => .off
  ticks := 0
  threadTicks := 0
  idleTicks := 0
  kernelTicks := 0
  userTicks := 0
  pcb := fun _ => false
  inExternalIntr := false
  yieldOnReturn := false
  outs := []

/-! ### What a step does

The lemmas about single functions come first: what an operation leaves alone, what one
timer interrupt counts, and that each of them succeeds where its assertions hold. -/

variable {c c' : Cpu} {a : Act} {o : Sched.Op} {level : IntrLevel} {t k vecNo : Nat}

/-- Between steps. -/
structure Inv (c : Cpu) : Prop where
  sched : c.sched.Inv
  slice : c.threadTicks < TIME_SLICE
  outside : c.inExternalIntr = false
  counted : c.ticks = c.idleTicks + c.kernelTicks + c.userTicks

theorem boot_inv (main : Nat) : Inv (boot main) :=
  ⟨Sched.threadInit_inv main, Nat.zero_lt_succ _, rfl, rfl⟩

theorem intrSetLevel_eq (h : c.intrSetLevel level = some c') :
    c' = { c with intrLevel := level } := by
  cases level with
  | off => exact (Option.some.inj h).symm
  | on =>
      simp only [intrSetLevel, intrEnable] at h
      split at h
      · exact absurd h (by simp)
      · exact (Option.some.inj h).symm

theorem intrSetLevel_isSome (h : level = .on → c.inExternalIntr = false) :
    (c.intrSetLevel level).isSome := by
  cases level with
  | off => rfl
  | on => simp [intrSetLevel, intrEnable, h rfl]

theorem startThread_eq (c : Cpu) (page : Option Nat) :
    ∃ pcb resume, c.startThread page = { c with pcb, resume } := by
  cases page with
  | none => exact ⟨c.pcb, c.resume, rfl⟩
  | some page => exact ⟨_, _, rfl⟩

/-- What an operation leaves of everything but the scheduler. -/
structure Same (c c' : Cpu) : Prop where
  ticks : c'.ticks = c.ticks
  idle : c'.idleTicks = c.idleTicks
  kernel : c'.kernelTicks = c.kernelTicks
  user : c'.userTicks = c.userTicks
  external : c'.inExternalIntr = c.inExternalIntr
  yield : c'.yieldOnReturn = c.yieldOnReturn
  outs : c'.outs = c.outs

theorem Same.trans {c₁ : Cpu} (h : Same c c₁) (h' : Same c₁ c') : Same c c' :=
  ⟨h'.ticks.trans h.ticks, h'.idle.trans h.idle, h'.kernel.trans h.kernel, h'.user.trans h.user,
    h'.external.trans h.external, h'.yield.trans h.yield, h'.outs.trans h.outs⟩

/-- An operation is a step of the scheduler. It begins a time slice if it ends in
`schedule`, and restores the level otherwise. -/
theorem op_eq (h : c.op o level = some c') :
    c.sched.Step o c'.sched ∧ Same c c' ∧
      (o.schedules = true → c'.threadTicks = 0) ∧
      (o.schedules = false → c'.threadTicks = c.threadTicks ∧ c'.intrLevel = c.intrLevel) := by
  unfold op at h
  -- whether the operation disables interrupts or finds them off, and whatever it creates
  have hframe : ∃ l pcb resume, (if o = .block then c else c.intrDisable).startThread (created o) =
      { c with intrLevel := l, pcb, resume } := by
    obtain ⟨pcb, resume, hstart⟩ :=
      startThread_eq (if o = .block then c else c.intrDisable) (created o)
    rw [hstart]
    split
    · exact ⟨_, _, _, rfl⟩
    · exact ⟨_, _, _, rfl⟩
  obtain ⟨l, pcb, resume, hstart⟩ := hframe
  rw [hstart] at h
  dsimp only at h
  split at h
  · obtain ⟨sched, hstep, hrest⟩ := Option.bind_eq_some_iff.mp h
    split at hrest
    · rename_i ho
      obtain rfl := intrSetLevel_eq hrest
      exact ⟨hstep, ⟨rfl, rfl, rfl, rfl, rfl, rfl, rfl⟩, fun _ => rfl,
        fun hnot => absurd ho (by simp [hnot])⟩
    · rename_i ho
      obtain rfl := intrSetLevel_eq hrest
      exact ⟨hstep, ⟨rfl, rfl, rfl, rfl, rfl, rfl, rfl⟩, fun hyes => absurd hyes ho,
        fun _ => ⟨rfl, rfl⟩⟩
  · exact absurd h (by simp)

/-- Outside of `thread_block` the assertions on the level cannot fail; with a level to
restore, interrupts must not be enabled in a handler. -/
theorem op_isSome (hstep : (c.sched.step o).isSome) (hblock : o ≠ .block)
    (hback : c.inExternalIntr = false ∨ o.schedules = false ∧ c.intrLevel = .off) :
    (c.op o level).isSome := by
  obtain ⟨sched, hsched⟩ := Option.isSome_iff_exists.mp hstep
  obtain ⟨pcb, resume, hstart⟩ := startThread_eq c.intrDisable (created o)
  unfold op
  rw [if_neg hblock, hstart]
  simp only [intrDisable, if_true, hsched, Option.bind_some]
  split
  · rename_i ho
    refine intrSetLevel_isSome fun _ => ?_
    exact hback.resolve_right fun h => absurd ho (by simp [h.1])
  · refine intrSetLevel_isSome fun hon => ?_
    exact hback.resolve_right fun h => absurd (h.2.symm.trans hon) (by simp)

theorem schedules_of_isWakeUp (h : isWakeUp o = true) : o.schedules = false := by
  cases o with
  | unblock t => rfl
  | semaUp sema => rfl
  | _ => exact absurd h (by simp [isWakeUp])

/-- Handlers of devices queue threads and do nothing else. -/
theorem deviceInterrupt_eq {os : List Sched.Op} (h : c.deviceInterrupt os = some c')
    (hinv : c.sched.Inv) :
    c'.sched.Inv ∧ (∃ more, c'.sched.fifoReadyList = c.sched.fifoReadyList ++ more) ∧ Same c c' ∧
      c'.threadTicks = c.threadTicks ∧ c'.intrLevel = c.intrLevel := by
  induction os generalizing c with
  | nil =>
      obtain rfl := Option.some.inj h
      exact ⟨hinv, ⟨[], (List.append_nil _).symm⟩, ⟨rfl, rfl, rfl, rfl, rfl, rfl, rfl⟩, rfl, rfl⟩
  | cons o os ih =>
      rw [deviceInterrupt] at h
      split at h
      · rename_i hwake
        obtain ⟨c₁, hc₁, hrest⟩ := Option.bind_eq_some_iff.mp h
        obtain ⟨hstep, hsame, -, hstay⟩ := op_eq hc₁
        obtain ⟨hticks, hlevel⟩ := hstay (schedules_of_isWakeUp hwake)
        obtain ⟨hinv₁, more₁, hmore₁⟩ := hinv.step_stay (schedules_of_isWakeUp hwake) hstep
        obtain ⟨hinv', ⟨more₂, hmore₂⟩, hsame', hticks', hlevel'⟩ := ih hrest hinv₁
        refine ⟨hinv', ⟨more₁ ++ more₂, ?_⟩, hsame.trans hsame', hticks'.trans hticks,
          hlevel'.trans hlevel⟩
        rw [hmore₂, hmore₁, List.append_assoc]
      · exact absurd h (by simp)

/-- Threads that a handler may wake up, one after the other: by a semaphore, or because the
handler knows that they wait. -/
def Wakes (s : Sched) : List Sched.Op → Prop
  | [] => True
  | o :: os => isWakeUp o = true ∧ s.Admits o = true ∧ ∀ s', s.Step o s' → Wakes s' os

/-- A handler finds interrupts off, so waking up does not enable them. -/
theorem deviceInterrupt_isSome {os : List Sched.Op} (hinv : c.sched.Inv)
    (hlevel : c.intrLevel = .off) (hwakes : Wakes c.sched os) : (c.deviceInterrupt os).isSome := by
  induction os generalizing c with
  | nil => rfl
  | cons o os ih =>
      obtain ⟨hwake, hadmits, hrest⟩ := hwakes
      have hstays := schedules_of_isWakeUp hwake
      have hblock : o ≠ .block := by
        rintro rfl
        exact absurd hstays (by simp [Sched.Op.schedules])
      have hsome : (c.op o (c.back o)).isSome :=
        op_isSome (hinv.stay_isSome hadmits hstays) hblock (Or.inr ⟨hstays, hlevel⟩)
      obtain ⟨c₁, hc₁⟩ := Option.isSome_iff_exists.mp hsome
      obtain ⟨hstep, -, -, hstay⟩ := op_eq hc₁
      rw [deviceInterrupt, if_pos hwake, hc₁, Option.bind_some]
      exact ih (hinv.step hstep) ((hstay hstays).2.trans hlevel) (hrest _ hstep)

/-- Counting one more tick. -/
structure Ticked (c c' : Cpu) : Prop where
  sched : c'.sched = c.sched
  level : c'.intrLevel = c.intrLevel
  ticks : c'.ticks = c.ticks + 1
  counted : c'.idleTicks + c'.kernelTicks + c'.userTicks =
    c.idleTicks + c.kernelTicks + c.userTicks + 1
  threadTicks : c'.threadTicks = c.threadTicks + 1
  external : c'.inExternalIntr = c.inExternalIntr
  outs : c'.outs = c.outs

/-- The running thread has exactly one of the three counters, and asks for a yield at the end
of its slice. -/
theorem timerInterrupt_eq (hinv : c.sched.Inv) (hin : c.inExternalIntr = true)
    (hyield : c.yieldOnReturn = false) :
    ∃ c', c.timerInterrupt = some c' ∧ Ticked c c' ∧
      c'.yieldOnReturn = decide (TIME_SLICE ≤ c.threadTicks + 1) := by
  unfold timerInterrupt threadTick
  simp only [hinv.threadCurrent_eq, Option.bind_eq_bind, Option.bind_some]
  by_cases hidle : c.sched.idleThread = some c.sched.current <;>
    by_cases huser : c.pcb c.sched.current = true <;>
    by_cases hslice : TIME_SLICE ≤ c.threadTicks + 1
  all_goals
    simp only [hidle, huser, if_true, if_false, Bool.false_eq_true, ge_iff_le, hslice,
      intrYieldOnReturn, hin]
    refine ⟨_, rfl, ⟨rfl, rfl, rfl, ?_, rfl, ?_, rfl⟩, ?_⟩
    · dsimp only
      omega
    · simp [hin]
    · simp [hyield]

/-- An external vector is acknowledged, the second controller only if it is concerned. -/
theorem picEndOfInterrupt_eq (hvec : 0x20 ≤ vecNo ∧ vecNo < 0x30) :
    c.picEndOfInterrupt vecNo = some { c with outs := c.outs ++ endOfInterrupt vecNo } := by
  unfold picEndOfInterrupt endOfInterrupt
  rw [if_pos hvec]
  split <;> simp [outb]

/-- What a step does to the ready list and to the time slice: nothing is dispatched, or
the thread at the front is and a new slice begins. -/
inductive Effect (c c' : Cpu) (ticked : Bool) : Prop
  | stay (more : List Nat) (hready : c'.sched.fifoReadyList = c.sched.fifoReadyList ++ more)
      (hticks : c'.threadTicks = c.threadTicks + ticked.toNat)
  | dispatch (more rest : List Nat)
      (hfront : c.sched.fifoReadyList ++ more = c'.sched.current :: rest)
      (hready : c'.sched.fifoReadyList = rest) (hticks : c'.threadTicks = 0)
  | idle (hfront : c.sched.fifoReadyList = []) (hready : c'.sched.fifoReadyList = [])
      (hticks : c'.threadTicks = 0)

theorem Effect.of_schedules {b : Bool} (hinv : c.sched.Inv) (ho : o.schedules = true)
    (hstep : c.sched.Step o c'.sched) (hticks : c'.threadTicks = 0) : Effect c c' b := by
  obtain ⟨-, more, ⟨rest, hfront, hready⟩ | ⟨hnil, hready⟩⟩ := hinv.step_schedule ho hstep
  · exact .dispatch more rest hfront hready hticks
  · exact .idle (List.append_eq_nil_iff.mp hnil).1 hready hticks

/-- What a step comes to, from between steps. -/
structure Goes (c : Cpu) (a : Act) (c' : Cpu) : Prop where
  inv : Inv c'
  effect : Effect c c' a.isTick
  ticks : c'.ticks = c.ticks + a.isTick.toNat
  outs : c'.outs = c.outs ++ a.vec.toList.flatMap endOfInterrupt

/-- A step that touches neither the scheduler nor the counters. -/
theorem Inv.goes_rest (h : Inv c) (hsame : Same c c') (hsched : c'.sched = c.sched)
    (hticks : c'.threadTicks = c.threadTicks) (htick : a.isTick = false) (hvec : a.vec = none) :
    Goes c a c' := by
  refine ⟨⟨hsched ▸ h.sched, by rw [hticks]; exact h.slice, hsame.external.trans h.outside, ?_⟩,
    .stay [] (by rw [hsched, List.append_nil]) (by rw [hticks, htick]; rfl), ?_, ?_⟩
  · rw [hsame.ticks, hsame.idle, hsame.kernel, hsame.user, h.counted]
  · rw [hsame.ticks, htick]
    rfl
  · rw [hsame.outs, hvec]
    exact (List.append_nil _).symm

/-- An operation that a thread calls. -/
theorem Inv.goes_op (h : Inv c) (hop : c.op o level = some c') : Goes c (.op o) c' := by
  obtain ⟨hs, hsame, hslice, hstay⟩ := op_eq hop
  have hcount : c'.ticks = c'.idleTicks + c'.kernelTicks + c'.userTicks := by
    rw [hsame.ticks, hsame.idle, hsame.kernel, hsame.user, h.counted]
  have houts : c'.outs = c.outs ++ (Act.op o).vec.toList.flatMap endOfInterrupt := by
    rw [hsame.outs]
    exact (List.append_nil _).symm
  cases ho : o.schedules with
  | true =>
      refine ⟨⟨h.sched.step hs, ?_, hsame.external.trans h.outside, hcount⟩,
        .of_schedules h.sched ho hs (hslice ho), hsame.ticks, houts⟩
      rw [hslice ho]
      decide
  | false =>
      obtain ⟨-, more, hmore⟩ := h.sched.step_stay ho hs
      refine ⟨⟨h.sched.step hs, ?_, hsame.external.trans h.outside, hcount⟩,
        .stay more hmore (hstay ho).1, hsame.ticks, houts⟩
      rw [(hstay ho).1]
      exact h.slice

/-- The state in which a handler begins. -/
def entered (c : Cpu) : Cpu :=
  { c with intrLevel := .off, inExternalIntr := true, yieldOnReturn := false }

/-- `intr_handler` behind the handler, which left interrupts off. -/
theorem intrHandler_eq {wakes : List Sched.Op} (hout : c.inExternalIntr = false)
    (hvec : 0x20 ≤ vecNo ∧ vecNo < 0x30) {c₁ : Cpu}
    (hhandler : c.entered.handler vecNo wakes = some c₁)
    (hlevel : c₁.intrLevel = .off) (hin : c₁.inExternalIntr = true) :
    c.intrDisable.intrHandler vecNo wakes =
      if c₁.yieldOnReturn then
        { c₁ with inExternalIntr := false, outs := c₁.outs ++ endOfInterrupt vecNo }.op .yield .on
      else
        some { c₁ with
          inExternalIntr := false
          outs := c₁.outs ++ endOfInterrupt vecNo
          intrLevel := .on } := by
  have hrun : ({ c.intrDisable with inExternalIntr := true, yieldOnReturn := false } : Cpu) =
      c.entered := rfl
  unfold intrHandler
  rw [if_neg (by simp [hvec, hout, intrDisable])]
  simp only [hrun, hhandler, Option.bind_eq_bind, Option.bind_some, hlevel, hin, reduceCtorEq,
    not_true_eq_false, or_self, if_false, picEndOfInterrupt_eq hvec, threadYield,
    Bool.false_eq_true]

/-- The timer: one tick more, and a yield if the slice is over. -/
theorem Inv.goes_tick (h : Inv c) {wakes : List Sched.Op}
    (hrun : c.intrDisable.intrHandler 0x20 wakes = some c') :
    Goes c (.interrupt 0x20 wakes) c' := by
  obtain ⟨c₁, hc₁, hticked, hyield⟩ := timerInterrupt_eq (c := c.entered) h.sched rfl rfl
  have hsched : c₁.sched = c.sched := hticked.sched
  have hticks₁ : c₁.ticks = c.ticks + 1 := hticked.ticks
  have hslice₁ : c₁.threadTicks = c.threadTicks + 1 := hticked.threadTicks
  have houts₁ : c₁.outs = c.outs := hticked.outs
  have hcount₁ : c₁.ticks = c₁.idleTicks + c₁.kernelTicks + c₁.userTicks := by
    rw [hticks₁, hticked.counted]
    exact congrArg (· + 1) h.counted
  rw [intrHandler_eq h.outside ⟨Nat.le_refl _, by decide⟩ hc₁ hticked.level
    hticked.external] at hrun
  split at hrun
  · -- the slice is over
    obtain ⟨hs, hsame, hslice, -⟩ := op_eq hrun
    have hs' : c.sched.Step .yield c'.sched := hsched ▸ hs
    refine ⟨⟨h.sched.step hs', by rw [hslice rfl]; decide, hsame.external, ?_⟩,
      .of_schedules h.sched rfl hs' (hslice rfl), ?_, ?_⟩
    · rw [hsame.ticks, hsame.idle, hsame.kernel, hsame.user]
      exact hcount₁
    · rw [hsame.ticks]
      exact hticks₁
    · rw [hsame.outs]
      exact congrArg (· ++ endOfInterrupt 0x20) houts₁
  · rename_i hmore
    obtain rfl := Option.some.inj hrun
    rw [hyield, decide_eq_true_eq, Nat.not_le] at hmore
    refine ⟨⟨by rw [hsched]; exact h.sched, ?_, rfl, hcount₁⟩, .stay [] ?_ hslice₁, hticks₁,
      congrArg (· ++ endOfInterrupt 0x20) houts₁⟩
    · show c₁.threadTicks < _
      rw [hslice₁]
      exact hmore
    · show c₁.sched.fifoReadyList = _
      rw [hsched, List.append_nil]

/-- Another device, which never asks for a yield. -/
theorem Inv.goes_device (h : Inv c) {wakes : List Sched.Op} (hvec : 0x20 ≤ vecNo ∧ vecNo < 0x30)
    (hdevice : vecNo ≠ 0x20) (hrun : c.intrDisable.intrHandler vecNo wakes = some c') :
    Goes c (.interrupt vecNo wakes) c' := by
  have hsome : ∃ c₁, c.entered.handler vecNo wakes = some c₁ := by
    unfold intrHandler at hrun
    split at hrun
    · exact absurd hrun (by simp)
    · obtain ⟨c₁, hc₁, -⟩ := Option.bind_eq_some_iff.mp hrun
      exact ⟨c₁, hc₁⟩
  obtain ⟨c₁, hhandler⟩ := hsome
  have hc₁ : c.entered.deviceInterrupt wakes = some c₁ := by
    rwa [handler, if_neg hdevice] at hhandler
  obtain ⟨hinv₁, ⟨more, hmore⟩, hsame, hticks, hlevel⟩ := deviceInterrupt_eq hc₁ h.sched
  have hyield : c₁.yieldOnReturn = false := hsame.yield
  rw [intrHandler_eq h.outside hvec hhandler hlevel hsame.external, hyield] at hrun
  obtain rfl := Option.some.inj hrun
  have htick : Act.isTick (.interrupt vecNo wakes) = false := by simp [Act.isTick, hdevice]
  refine ⟨⟨hinv₁, ?_, rfl, ?_⟩, .stay more hmore (by rw [htick]; exact hticks),
    by rw [htick]; exact hsame.ticks, ?_⟩
  · show c₁.threadTicks < _
    rw [hticks]
    exact h.slice
  · show c₁.ticks = c₁.idleTicks + c₁.kernelTicks + c₁.userTicks
    rw [hsame.ticks, hsame.idle, hsame.kernel, hsame.user]
    exact h.counted
  · have houts : c₁.outs = c.outs := hsame.outs
    simp [Act.vec, houts]

/-- **One step**, from between steps. -/
theorem Inv.step (h : Inv c) (hstep : c.Step a c') : Goes c a c' := by
  unfold Step Cpu.step at hstep
  cases a with
  | setPcb b =>
      obtain rfl := Option.some.inj hstep
      exact h.goes_rest ⟨rfl, rfl, rfl, rfl, rfl, rfl, rfl⟩ rfl rfl rfl rfl
  | setLevel level =>
      obtain rfl := intrSetLevel_eq hstep
      exact h.goes_rest ⟨rfl, rfl, rfl, rfl, rfl, rfl, rfl⟩ rfl rfl rfl rfl
  | op o =>
      simp only [h.outside, Bool.false_eq_true, if_false] at hstep
      exact h.goes_op hstep
  | interrupt vecNo wakes =>
      dsimp only at hstep
      split at hstep
      · by_cases hvec : 0x20 ≤ vecNo ∧ vecNo < 0x30
        · by_cases htimer : vecNo = 0x20
          · subst htimer
            exact h.goes_tick hstep
          · exact h.goes_device hvec htimer hstep
        · rw [intrHandler, if_pos (Or.inl hvec)] at hstep
          exact absurd hstep (by simp)
      · exact absurd hstep (by simp)

/-- A yield finds a thread to run: the one that yields, if there is no other. -/
theorem yield_isSome {s : Sched} (h : s.Inv) : (s.step .yield).isSome := by
  by_cases hidle : s.idleThread = none
  · obtain ⟨s₁, hs₁, hleave, -⟩ := h.enter_leave (rfl : s.Admits .yield = true) rfl
    have hready : s₁.fifoReadyList = s.fifoReadyList ++ [s.current] := by
      simp only [Sched.enter, h.threadCurrent_eq, hidle, Option.map_some, reduceCtorEq, if_false]
        at hs₁
      obtain rfl := Option.some.inj hs₁
      rfl
    obtain ⟨next, rest, hp⟩ := Sched.exists_picks (s := s₁) (Or.inl (by simp [hready]))
    obtain ⟨page, hrun, -⟩ := hleave.dispatch hp
    have hadmits : s.Admits .yield = true := rfl
    simp [Sched.step, hadmits, hs₁, Sched.Op.schedules, Sched.schedule, hrun]
  · exact h.step_isSome hidle rfl

/-- **No assertion fails in an external interrupt**, which arrives while they are on. -/
theorem Inv.interrupt_isSome (h : Inv c) (hon : c.intrLevel = .on) {wakes : List Sched.Op}
    (hvec : 0x20 ≤ vecNo ∧ vecNo < 0x30) (hwakes : vecNo ≠ 0x20 → Wakes c.sched wakes) :
    (c.step (.interrupt vecNo wakes)).isSome := by
  have hhandler : ∃ c₁, c.entered.handler vecNo wakes = some c₁ ∧ c₁.intrLevel = .off ∧
      c₁.inExternalIntr = true ∧ c₁.sched.Inv := by
    unfold handler
    by_cases htimer : vecNo = 0x20
    · obtain ⟨c₁, hc₁, hticked, -⟩ := timerInterrupt_eq (c := c.entered) h.sched rfl rfl
      rw [if_pos htimer]
      exact ⟨c₁, hc₁, hticked.level, hticked.external, by rw [hticked.sched]; exact h.sched⟩
    · obtain ⟨c₁, hc₁⟩ := Option.isSome_iff_exists.mp
        (deviceInterrupt_isSome (c := c.entered) h.sched rfl (hwakes htimer))
      obtain ⟨hinv₁, -, hsame, -, hlevel⟩ := deviceInterrupt_eq hc₁ h.sched
      rw [if_neg htimer]
      exact ⟨c₁, hc₁, hlevel, hsame.external, hinv₁⟩
  obtain ⟨c₁, hc₁, hlevel, hin, hinv₁⟩ := hhandler
  show (if c.intrLevel = .on then _ else _ : Option Cpu).isSome
  rw [if_pos hon, intrHandler_eq h.outside hvec hc₁ hlevel hin]
  split
  · exact op_isSome (yield_isSome hinv₁) (by simp) (Or.inl rfl)
  · rfl

/-! ### Runs -/

variable {ts : List (Transition Cpu Act)}

/-- **Round robin**, from any state between steps: a slice ends after `TIME_SLICE` ticks,
and whenever one does the threads that are ready move one place forward. -/
theorem Inv.dispatched (h : Inv c) (hrun : Run Step c ts) (hk : c.sched.fifoReadyList[k]? = some t)
    (hticks : TIME_SLICE * (k + 1) ≤ c.threadTicks + ts.countP fun τ => τ.label.isTick) :
    ∃ τ ∈ ts, τ.post.sched.current = t := by
  induction hrun generalizing k with
  | nil c =>
      have := h.slice
      rw [List.countP_nil, TIME_SLICE] at hticks
      rw [TIME_SLICE] at this
      omega
  | @cons c c' a ts hstep _ ih =>
      obtain ⟨hinv, heffect, -, -⟩ := h.step hstep
      have hslice := h.slice
      have hlt : k < c.sched.fifoReadyList.length := (List.getElem?_eq_some_iff.mp hk).1
      have hone : a.isTick.toNat ≤ 1 := Bool.toNat_le _
      have hcount : (List.countP (fun τ => τ.label.isTick) (⟨c, a, c'⟩ :: ts)) =
          ts.countP (fun τ => τ.label.isTick) + a.isTick.toNat := by
        rw [List.countP_cons]
        cases a.isTick <;> rfl
      have hlater : (∃ τ ∈ ts, τ.post.sched.current = t) →
          ∃ τ ∈ ⟨c, a, c'⟩ :: ts, τ.post.sched.current = t := by
        rintro ⟨τ, hτ, hcur⟩
        exact ⟨τ, List.mem_cons_of_mem _ hτ, hcur⟩
      rw [hcount] at hticks
      cases heffect with
      | stay more hready hstay =>
          refine hlater (ih hinv (k := k) ?_ (by omega))
          rw [hready, List.getElem?_append_left hlt, hk]
      | idle hnil => rw [hnil] at hlt; exact absurd hlt (Nat.not_lt_zero _)
      | dispatch more rest hfront hready hzero =>
          have hpos : (c'.sched.current :: rest)[k]? = some t := by
            rw [← hfront, List.getElem?_append_left hlt, hk]
          cases k with
          | zero => exact ⟨_, List.mem_cons_self, Option.some.inj hpos⟩
          | succ k =>
              refine hlater (ih hinv (k := k) (by rw [hready]; exact hpos) ?_)
              rw [TIME_SLICE] at hslice hticks ⊢
              omega

/-- **No thread starves.** In every run, the thread with `k` others ahead of it in the ready
list runs before `k + 1` time slices are over, however the ticks fall. The ticks of the
current slice and the position in the list make a measure, which each tick lowers while the
thread waits. -/
theorem round_robin {main : Nat} {ts₁ ts₂ : List (Transition Cpu Act)} {τ : Transition Cpu Act}
    (hrun : Run Step (boot main) (ts₁ ++ τ :: ts₂))
    (hk : τ.post.sched.fifoReadyList[k]? = some t)
    (hticks : TIME_SLICE * (k + 1) ≤
      τ.post.threadTicks + ts₂.countP fun σ => σ.label.isTick) :
    ∃ σ ∈ ts₂, σ.post.sched.current = t := by
  have hinv := (hrun.invariant (I := Inv) (fun _ _ _ h hs => (h.step hs).inv) (boot_inv main) τ
    (by simp)).2
  exact hinv.dispatched hrun.suffix hk hticks

/-- The second thread has one slice to wait. -/
theorem round_robin_sample :
    ∃ τ₁ τ₂ ts, Run.trace Cpu.step (boot 1)
        [.op (.create (some 2)), .setLevel .on, tick, tick, tick, tick] = τ₁ :: τ₂ :: ts ∧
      τ₂.post.sched.current = 1 ∧ ∃ σ ∈ ts, σ.post.sched.current = 2 :=
  ⟨_, _, _, rfl, rfl, @round_robin _ 0 _ [_] _ _
    (Run.of_trace Cpu.step (boot 1) [.op (.create (some 2)), .setLevel .on, tick, tick, tick, tick])
    rfl (by decide)⟩

theorem acknowledged_cons (τ : Transition Cpu Act) (ts : List (Transition Cpu Act)) :
    acknowledged (τ :: ts) =
      τ.label.vec.toList.flatMap endOfInterrupt ++ acknowledged ts := by
  unfold acknowledged
  rw [List.filterMap_cons]
  cases τ.label.vec with
  | none => rfl
  | some vecNo => simp

/-- What the steps of a run add up to. -/
theorem Inv.accounted (h : Inv c) (hrun : Run Step c ts) {τ : Transition Cpu Act}
    (hlast : ts.getLast? = some τ) :
    Inv τ.post ∧ τ.post.ticks = c.ticks + ts.countP (fun σ => σ.label.isTick) ∧
      τ.post.outs = c.outs ++ acknowledged ts := by
  induction hrun with
  | nil c => exact absurd hlast (by simp)
  | @cons c c' a ts hstep htail ih =>
      obtain ⟨hinv, -, hticks, houts⟩ := h.step hstep
      have hcount : List.countP (fun σ => σ.label.isTick) (⟨c, a, c'⟩ :: ts) =
          a.isTick.toNat + ts.countP fun σ => σ.label.isTick := by
        rw [List.countP_cons, Nat.add_comm]
        cases a.isTick <;> rfl
      rw [hcount, acknowledged_cons, ← Nat.add_assoc, ← hticks, ← List.append_assoc, ← houts]
      cases ts with
      | nil =>
          obtain rfl := Option.some.inj hlast
          exact ⟨hinv, rfl, (List.append_nil _).symm⟩
      | cons σ ts => exact ih hinv (by rwa [List.getLast?_cons_cons] at hlast)

/-- **Interrupts are accounted for.** After any run, every tick has been counted once, for the
idle thread, the kernel or a process; every external interrupt has been acknowledged once, in
order, to the controllers concerned; and no assertion fails in the next interrupt, if
interrupts are on. With fewer than `2⁶³` ticks no counter leaves its `long long`. -/
theorem interrupts_accounted {main : Nat} (hrun : Run Step (boot main) ts)
    {τ : Transition Cpu Act} (hlast : ts.getLast? = some τ)
    (hfew : ts.countP (fun σ => σ.label.isTick) < 2 ^ 63) :
    τ.post.ticks = ts.countP (fun σ => σ.label.isTick) ∧
      τ.post.idleTicks + τ.post.kernelTicks + τ.post.userTicks = τ.post.ticks ∧
      τ.post.ticks < 2 ^ 63 ∧ τ.post.outs = acknowledged ts ∧
      (τ.post.intrLevel = .on → ∀ vecNo wakes, 0x20 ≤ vecNo → vecNo < 0x30 →
        (vecNo ≠ 0x20 → Wakes τ.post.sched wakes) →
        (τ.post.step (.interrupt vecNo wakes)).isSome) := by
  obtain ⟨hinv, hticks, houts⟩ := (boot_inv main).accounted hrun hlast
  have hcount : τ.post.ticks = ts.countP fun σ => σ.label.isTick := by
    rw [hticks]
    exact Nat.zero_add _
  refine ⟨hcount, hinv.counted.symm, hcount ▸ hfew, houts, ?_⟩
  intro hon vecNo wakes hlow hhigh hwakes
  exact hinv.interrupt_isSome hon ⟨hlow, hhigh⟩ hwakes

/-- A process, a device of each controller and the timer. -/
theorem interrupts_accounted_sample :
    ∃ τ, (Run.trace Cpu.step (boot 1)
        [.setLevel .on, tick, .setPcb true, .op (.create (some 2)), tick, .interrupt 0x21 [],
          .interrupt 0x2e [.semaUp 0]]).getLast? = some τ ∧
      τ.post.ticks = 2 ∧ τ.post.idleTicks + τ.post.kernelTicks + τ.post.userTicks = τ.post.ticks ∧
      τ.post.ticks < 2 ^ 63 ∧
      τ.post.outs = [(0x20, 0x20), (0x20, 0x20), (0x20, 0x20), (0x20, 0x20), (0xa0, 0x20)] ∧
      (τ.post.intrLevel = .on → ∀ vecNo wakes, 0x20 ≤ vecNo → vecNo < 0x30 →
        (vecNo ≠ 0x20 → Wakes τ.post.sched wakes) →
        (τ.post.step (.interrupt vecNo wakes)).isSome) :=
  ⟨_, rfl, interrupts_accounted (Run.of_trace Cpu.step (boot 1)
    [.setLevel .on, tick, .setPcb true, .op (.create (some 2)), tick, .interrupt 0x21 [],
      .interrupt 0x2e [.semaUp 0]]) rfl (by decide)⟩

end Cpu

end OsTools.Threads

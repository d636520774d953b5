import OsTools.Threads.Monitor
/-!
# OsTools.Devices.Ide

Reading and writing sectors in `devices/ide.c`: `ide_read` and `ide_write` on one channel with its
two disks, the interrupt handler, and the controller as [ATA-3] describes it for the two commands.

Sectors are of any type. The controller answers whenever it likes, but before the last pass of
`wait_while_busy`, behind which the driver panics; nothing is said of disks that report errors.
Reading the alternate status and the delays are left out. What the controller makes of a register
that is written while it is busy, or of data that it has not asked for, is not defined: it is
`garbled` from then on.

The lock of the channel is used by the rule of `OsTools.Threads.Monitor`. While nobody has it
the channel is `Idle`, and inside the code the invariant `At` says for each suffix of the
instructions what the controller is doing then, how far the completion interrupt has come
(`Awaits`), and how the disks and the log of transfers agree. One lemma shows that an
instruction keeps it (`At.exec`), one each that the controller and the handler do.
-/

namespace OsTools.Devices.Ide

open OsTools.Threads
open Function (update)

/-! ### The controller -/

inductive Reg
  | nsect
  | lbal
  | lbam
  | lbah
  | device
  deriving DecidableEq

/-- What the controller is doing. -/
inductive Phase (Sector : Type*)
  | idle
  /-- Busy with a read. -/
  | reading
  /-- The data are there. -/
  | dataIn (data : Sector)
  /-- Busy before it takes the data of a write. -/
  | preparing
  | dataOut
  /-- Busy with the data of a write. -/
  | writing (data : Sector)

def STA_BSY : UInt8 := 0x80
def STA_DRDY : UInt8 := 0x40
def STA_DRQ : UInt8 := 0x08
def DEV_MBS : UInt8 := 0xa0
def DEV_LBA : UInt8 := 0x40
def DEV_DEV : UInt8 := 0x10
def CMD_READ_SECTOR_RETRY : UInt8 := 0x20
def CMD_WRITE_SECTOR_RETRY : UInt8 := 0x30

def Phase.status {Sector : Type*} : Phase Sector → UInt8
  | .idle => STA_DRDY
  | .dataIn _ | .dataOut => STA_DRDY ||| STA_DRQ
  | .reading | .preparing | .writing _ => STA_BSY

/-- A request for a sector of a disk, with the data of a write. -/
structure Request (Sector : Type*) where
  devNo : Bool
  secNo : Nat
  data : Option Sector
  /-- The assertion of `select_sector`. -/
  small : secNo < 2 ^ 28

/-- The disk and sector that the registers select, if they do so by LBA and ask for one sector. -/
def address (regs : Reg → UInt8) : Option (Bool × Nat) :=
  if regs .nsect = 1 ∧ regs .device &&& DEV_LBA = DEV_LBA then
    some (regs .device &&& DEV_DEV = DEV_DEV,
      (regs .lbal).toNat + 2 ^ 8 * (regs .lbam).toNat + 2 ^ 16 * (regs .lbah).toNat +
        2 ^ 24 * (regs .device &&& 0x0f).toNat)
  else none

/-- The controller, what the driver has for the channel, and the disks. `log` records the
requests in the order in which their data were transferred, with the data of reads. -/
structure Channel (Tid Sector : Type*) where
  regs : Reg → UInt8
  phase : Phase Sector
  /-- The interrupt line. -/
  intrq : Bool
  disk : Bool × Nat → Sector
  expectingInterrupt : Bool
  completionWait : Semaphore Tid
  /-- A register was written, or data transferred, when the controller did not expect it. -/
  garbled : Bool
  log : List (Tid × Request Sector × Sector)

/-! ### The driver -/

/-- The steps of the driver; the loops come with the number of their pass. -/
inductive Instr (Sector : Type*)
  | waitUntilIdle (i : Nat)
  | outb (r : Reg) (v : UInt8)
  /-- `c->expecting_interrupt = true`. -/
  | expect
  /-- `outb (reg_command (c), command)`. -/
  | command (v : UInt8)
  /-- `sema_down (&c->completion_wait)`. -/
  | down
  | waitWhileBusy (i : Nat)
  | inputSector
  | outputSector (data : Sector)

variable {Tid Sector : Type*} [DecidableEq Tid]

def devBit (devNo : Bool) : UInt8 := if devNo then DEV_DEV else 0

def selectDevice (devNo : Bool) : List (Instr Sector) := [.outb .device (DEV_MBS ||| devBit devNo)]

def selectDeviceWait (devNo : Bool) : List (Instr Sector) :=
  .waitUntilIdle 0 :: selectDevice devNo ++ [.waitUntilIdle 0]

def selectSector (devNo : Bool) (secNo : Nat) : List (Instr Sector) :=
  selectDeviceWait devNo ++
    [.outb .nsect 1, .outb .lbal (UInt8.ofNat secNo), .outb .lbam (UInt8.ofNat (secNo >>> 8)),
      .outb .lbah (UInt8.ofNat (secNo >>> 16)),
      .outb .device (DEV_MBS ||| DEV_LBA ||| devBit devNo ||| UInt8.ofNat (secNo >>> 24))]

def issuePioCommand (command : UInt8) : List (Instr Sector) := [.expect, .command command]

/-- `ide_read` and `ide_write`, between `lock_acquire` and `lock_release`. -/
def ideRead (devNo : Bool) (secNo : Nat) : List (Instr Sector) :=
  selectSector devNo secNo ++ issuePioCommand CMD_READ_SECTOR_RETRY ++
    [.down, .waitWhileBusy 0, .inputSector]

def ideWrite (devNo : Bool) (secNo : Nat) (data : Sector) : List (Instr Sector) :=
  selectSector devNo secNo ++ issuePioCommand CMD_WRITE_SECTOR_RETRY ++
    [.waitWhileBusy 0, .outputSector data, .down]

def Request.code (r : Request Sector) : List (Instr Sector) :=
  match r.data with
  | none => ideRead r.devNo r.secNo
  | some data => ideWrite r.devNo r.secNo data

/-- The state of the code: its request and what is left to do. -/
structure Code (Sector : Type*) where
  request : Request Sector
  todo : List (Instr Sector)

namespace Channel

/-- Reading the status register clears a pending interrupt. -/
def readStatus (c : Channel Tid Sector) : Channel Tid Sector := { c with intrq := false }

def garble (c : Channel Tid Sector) : Channel Tid Sector := { c with garbled := true }

/-- Registers must not be written while the controller is not idle. -/
def outb (c : Channel Tid Sector) (r : Reg) (v : UInt8) : Channel Tid Sector :=
  match c.phase with
  | .idle => { c with regs := update c.regs r v }
  | _ => c.garble

/-- A command, to which the controller turns at once. -/
def outbCommand (c : Channel Tid Sector) (v : UInt8) : Channel Tid Sector :=
  match c.phase with
  | .idle =>
      if v = CMD_READ_SECTOR_RETRY then { c with phase := .reading }
      else if v = CMD_WRITE_SECTOR_RETRY then { c with phase := .preparing }
      else c.garble
  | _ => c.garble

/-- One step of the driver, of which `rest` is left. -/
def exec (c : Channel Tid Sector) (t : Tid) (r : Request Sector) (rest : List (Instr Sector)) :
    Instr Sector → Option (List (Instr Sector) × Channel Tid Sector)
  | .waitUntilIdle i =>
      if i ≥ 1000 then some (rest, c)
      else if c.phase.status &&& (STA_BSY ||| STA_DRQ) = 0 then some (rest, c.readStatus)
      else some (.waitUntilIdle (i + 1) :: rest, c.readStatus)
  | .outb reg v => some (rest, c.outb reg v)
  | .expect => some (rest, { c with expectingInterrupt := true })
  | .command v => some (rest, c.outbCommand v)
  | .down =>
      -- a waiter sleeps
      if t ∈ c.completionWait.waiters then none
      else
        match semaDown c.completionWait t with
        | (sema, true) => some (rest, { c with completionWait := sema })
        | (sema, false) => some (.down :: rest, { c with completionWait := sema })
  | .waitWhileBusy i =>
      if c.phase.status &&& STA_BSY = 0 then
        -- PANIC otherwise
        if c.phase.status &&& STA_DRQ = 0 then none else some (rest, c)
      else if i + 1 < 3000 then some (.waitWhileBusy (i + 1) :: rest, c)
      else none
  | .inputSector =>
      match c.phase with
      | .dataIn data => some (rest, { c with phase := .idle, log := c.log ++ [(t, r, data)] })
      | _ => some (rest, c.garble)
  | .outputSector data =>
      match c.phase with
      | .dataOut =>
          some (rest, { c with phase := .writing data, log := c.log ++ [(t, r, data)] })
      | _ => some (rest, c.garble)

/-- The controller goes on. -/
def answer (c : Channel Tid Sector) : Option (Channel Tid Sector) :=
  match c.phase with
  | .reading =>
      (address c.regs).map fun a => { c with phase := .dataIn (c.disk a), intrq := true }
  | .preparing => some { c with phase := .dataOut }
  | .writing data =>
      (address c.regs).map fun a =>
        { c with phase := .idle, disk := update c.disk a data, intrq := true }
  | _ => none

/-- `interrupt_handler`. -/
def interruptHandler (c : Channel Tid Sector) : Channel Tid Sector :=
  if c.expectingInterrupt then
    { c.readStatus with completionWait := (semaUp c.completionWait).1 }
  else c

def interrupt (c : Channel Tid Sector) : Option (Channel Tid Sector) :=
  if c.intrq then some c.interruptHandler else none

end Channel

inductive Event
  | answer
  | interrupt
  deriving DecidableEq

/-- The data of the request are transferred. -/
def isTransfer : Instr Sector → Bool
  | .inputSector | .outputSector _ => true
  | _ => false

/-- The channel, as data behind its lock. -/
def ide (Tid Sector : Type*) [DecidableEq Tid] :
    Monitor Tid (Request Sector) (Code Sector) (Channel Tid Sector) Event where
  start r := ⟨r, r.code⟩
  body t k c :=
    match k.todo with
    | [] => none
    | i :: rest => (c.exec t k.request rest i).map fun (todo, c) => ({ k with todo }, c)
  finished k := k.todo.isEmpty
  event
    | .answer, c => c.answer
    | .interrupt, c => c.interrupt
  served k := !k.todo.any isTransfer
  servedBy c t := c.log.filterMap fun (u, r, _) => if u = t then some r else none

/-! ### What the disks are for -/

def effect (disk : Bool × Nat → Sector) (e : Tid × Request Sector × Sector) : Bool × Nat → Sector :=
  match e.2.1.data with
  | none => disk
  | some data => update disk (e.2.1.devNo, e.2.1.secNo) data

/-- The disks after the writes of a log. -/
def replay (disk : Bool × Nat → Sector) (log : List (Tid × Request Sector × Sector)) :
    Bool × Nat → Sector := log.foldl effect disk

/-- Every read of the log got what the last write of its sector before it wrote. -/
def Legal (disk : Bool × Nat → Sector) (log : List (Tid × Request Sector × Sector)) : Prop :=
  ∀ l₁ e l₂, log = l₁ ++ e :: l₂ → e.2.1.data = none →
    e.2.2 = replay disk l₁ (e.2.1.devNo, e.2.1.secNo)

variable {t : Tid} {r : Request Sector} {c c' : Channel Tid Sector}
  {todo rest : List (Instr Sector)} {disk : Bool × Nat → Sector}
  {log : List (Tid × Request Sector × Sector)}

omit [DecidableEq Tid] in
theorem replay_snoc (e : Tid × Request Sector × Sector) :
    replay disk (log ++ [e]) = effect (replay disk log) e := by
  unfold replay
  rw [List.foldl_append]
  rfl

omit [DecidableEq Tid] in
theorem Legal.snoc (h : Legal disk log) {e : Tid × Request Sector × Sector}
    (he : e.2.1.data = none → e.2.2 = replay disk log (e.2.1.devNo, e.2.1.secNo)) :
    Legal disk (log ++ [e]) := by
  intro l₁ e' l₂ hsplit hread
  rcases List.eq_nil_or_concat l₂ with rfl | ⟨l₂, e₂, rfl⟩
  · obtain ⟨rfl, hlast⟩ := List.append_inj' hsplit rfl
    obtain rfl := List.cons.inj hlast |>.1
    exact he hread
  · rw [List.concat_eq_append, ← List.cons_append, ← List.append_assoc] at hsplit
    obtain ⟨rfl, -⟩ := List.append_inj' hsplit rfl
    exact h l₁ e' l₂ rfl hread

/-! ### The registers -/

def setReg (regs : Reg → UInt8) : Instr Sector → Reg → UInt8
  | .outb r v => update regs r v
  | _ => regs

/-- The registers after the code. -/
def finalRegs (todo : List (Instr Sector)) (regs : Reg → UInt8) : Reg → UInt8 :=
  todo.foldl setReg regs

theorem device_bits : ∀ n < 16, ∀ devNo : Bool,
    (DEV_MBS ||| DEV_LBA ||| devBit devNo ||| UInt8.ofNat n) &&& DEV_LBA = DEV_LBA ∧
      decide ((DEV_MBS ||| DEV_LBA ||| devBit devNo ||| UInt8.ofNat n) &&& DEV_DEV = DEV_DEV) =
        devNo ∧
      ((DEV_MBS ||| DEV_LBA ||| devBit devNo ||| UInt8.ofNat n) &&& 0x0f).toNat = n := by
  decide

/-- `select_sector` selects the sector. -/
theorem address_selectSector (devNo : Bool) {secNo : Nat} (h : secNo < 2 ^ 28)
    (regs : Reg → UInt8) :
    address (finalRegs (selectSector devNo secNo : List (Instr Sector)) regs) =
      some (devNo, secNo) := by
  have hfinal : finalRegs (selectSector devNo secNo : List (Instr Sector)) regs = fun r =>
      match r with
      | .nsect => 1
      | .lbal => UInt8.ofNat secNo
      | .lbam => UInt8.ofNat (secNo >>> 8)
      | .lbah => UInt8.ofNat (secNo >>> 16)
      | .device => DEV_MBS ||| DEV_LBA ||| devBit devNo ||| UInt8.ofNat (secNo >>> 24) := by
    funext r
    cases r <;> rfl
  have hhigh : secNo >>> 24 < 16 := by
    rw [Nat.shiftRight_eq_div_pow]
    omega
  obtain ⟨hlba, hdev, hsec⟩ := device_bits (secNo >>> 24) hhigh devNo
  rw [hfinal]
  unfold address
  simp only
  rw [if_pos ⟨trivial, hlba⟩, hdev, hsec]
  simp only [UInt8.toNat_ofNat', Nat.shiftRight_eq_div_pow]
  congr 2
  omega

/-! ### The invariant -/

/-- Nothing is under way, and the disks are as the log says. -/
structure Idle (disk : Bool × Nat → Sector) (c : Channel Tid Sector) : Prop where
  phase : c.phase = .idle
  intrq : c.intrq = false
  sema : c.completionWait = ⟨0, []⟩
  clean : c.garbled = false
  legal : Legal disk c.log
  disk : c.disk = replay disk c.log

/-- The interrupt at the end of a command: not raised yet, raised, or handled. -/
inductive Awaits (t : Tid) (c : Channel Tid Sector) : Bool → Prop
  | pending (hintrq : c.intrq = false) (hvalue : c.completionWait.value = 0)
      (hwaiters : c.completionWait.waiters = [] ∨ c.completionWait.waiters = [t]) : Awaits t c false
  | raised (hintrq : c.intrq = true) (hvalue : c.completionWait.value = 0)
      (hwaiters : c.completionWait.waiters = [] ∨ c.completionWait.waiters = [t]) : Awaits t c true
  | handled (hintrq : c.intrq = false) (hsema : c.completionWait = ⟨1, []⟩) : Awaits t c true

/-- During a command. -/
structure Under (disk : Bool × Nat → Sector) (r : Request Sector) (c : Channel Tid Sector) :
    Prop where
  address : address c.regs = some (r.devNo, r.secNo)
  expecting : c.expectingInterrupt = true
  clean : c.garbled = false
  legal : Legal disk c.log

/-- What holds at each place of the code, by what is left of it. -/
inductive At (disk : Bool × Nat → Sector) (t : Tid) (r : Request Sector) (c : Channel Tid Sector) :
    List (Instr Sector) → Prop
  | select {todo rest : List (Instr Sector)} (hsuffix : todo <:+ selectSector r.devNo r.secNo)
      (hrest : r.code = selectSector r.devNo r.secNo ++ .expect :: rest)
      (hidle : Idle disk c)
      (haddress : address (finalRegs todo c.regs) = some (r.devNo, r.secNo)) :
      At disk t r c (todo ++ .expect :: rest)
  | command {rest : List (Instr Sector)}
      (hrest : r.code = selectSector r.devNo r.secNo ++ .expect :: rest)
      (hidle : Idle disk c) (hunder : Under disk r c) : At disk t r c rest
  | read (hread : r.data = none) (hunder : Under disk r c) (hdisk : c.disk = replay disk c.log)
      (hphase : c.phase = .reading ∧ Awaits t c false ∨
        c.phase = .dataIn (c.disk (r.devNo, r.secNo)) ∧ Awaits t c true) :
      At disk t r c [.down, .waitWhileBusy 0, .inputSector]
  | readBusy (hread : r.data = none) (hunder : Under disk r c) (hdisk : c.disk = replay disk c.log)
      (hphase : c.phase = .dataIn (c.disk (r.devNo, r.secNo))) (hintrq : c.intrq = false)
      (hsema : c.completionWait = ⟨0, []⟩) : At disk t r c [.waitWhileBusy 0, .inputSector]
  | input (hread : r.data = none) (hunder : Under disk r c) (hdisk : c.disk = replay disk c.log)
      (hphase : c.phase = .dataIn (c.disk (r.devNo, r.secNo))) (hintrq : c.intrq = false)
      (hsema : c.completionWait = ⟨0, []⟩) : At disk t r c [.inputSector]
  | write {data : Sector} {i : Nat} (hwrite : r.data = some data) (hunder : Under disk r c)
      (hdisk : c.disk = replay disk c.log) (hi : i < 3000)
      (hphase : c.phase = .preparing ∨ c.phase = .dataOut) (hintrq : c.intrq = false)
      (hsema : c.completionWait = ⟨0, []⟩) :
      At disk t r c [.waitWhileBusy i, .outputSector data, .down]
  | output {data : Sector} (hwrite : r.data = some data) (hunder : Under disk r c)
      (hdisk : c.disk = replay disk c.log) (hphase : c.phase = .dataOut) (hintrq : c.intrq = false)
      (hsema : c.completionWait = ⟨0, []⟩) : At disk t r c [.outputSector data, .down]
  | written {data : Sector} (hwrite : r.data = some data) (hunder : Under disk r c)
      (hphase : c.phase = .writing data ∧ Awaits t c false ∧
          (∃ log, c.log = log ++ [(t, r, data)] ∧ c.disk = replay disk log) ∨
        c.phase = .idle ∧ Awaits t c true ∧ c.disk = replay disk c.log) :
      At disk t r c [.down]
  | done (hidle : Idle disk c) : At disk t r c []

omit [DecidableEq Tid] in
/-- The code after `select_sector`. -/
theorem code_cases (r : Request Sector) {rest : List (Instr Sector)}
    (h : r.code = selectSector r.devNo r.secNo ++ .expect :: rest) :
    r.data = none ∧
        rest = [.command CMD_READ_SECTOR_RETRY, .down, .waitWhileBusy 0, .inputSector] ∨
      ∃ data, r.data = some data ∧
        rest = [.command CMD_WRITE_SECTOR_RETRY, .waitWhileBusy 0, .outputSector data, .down] := by
  unfold Request.code at h
  cases hdata : r.data with
  | none =>
      rw [hdata] at h
      have h' := (List.append_cancel_left ((List.append_assoc ..).symm.trans h))
      exact .inl ⟨rfl, (List.cons.inj h').2.symm⟩
  | some data =>
      rw [hdata] at h
      have h' := (List.append_cancel_left ((List.append_assoc ..).symm.trans h))
      exact .inr ⟨data, rfl, (List.cons.inj h').2.symm⟩

omit [DecidableEq Tid] in
theorem mem_selectSector {devNo : Bool} {secNo : Nat} {i : Instr Sector}
    (h : i ∈ selectSector devNo secNo) : i = .waitUntilIdle 0 ∨ ∃ reg v, i = .outb reg v := by
  simp only [selectSector, selectDeviceWait, selectDevice, List.cons_append, List.nil_append,
    List.mem_cons, List.not_mem_nil, or_false] at h
  rcases h with rfl | rfl | rfl | rfl | rfl | rfl | rfl | rfl
  · exact .inl rfl
  · exact .inr ⟨_, _, rfl⟩
  · exact .inl rfl
  · exact .inr ⟨_, _, rfl⟩
  · exact .inr ⟨_, _, rfl⟩
  · exact .inr ⟨_, _, rfl⟩
  · exact .inr ⟨_, _, rfl⟩
  · exact .inr ⟨_, _, rfl⟩

/-! ### The completion interrupt -/

/-- `sema_down` on the completion semaphore. Either the thread blocks, and nothing but the
semaphore changes; or the unit that the handler has put there is taken, and then the interrupt
has been raised and handled, so that none is pending any more. -/
theorem Awaits.down {b : Bool} (h : Awaits t c b)
    (hexec : c.exec t r rest .down = some (todo, c')) :
    (todo = .down :: rest ∧ ∃ sema, c' = { c with completionWait := sema } ∧ Awaits t c' b) ∨
      (todo = rest ∧ b = true ∧ c.intrq = false ∧ c' = { c with completionWait := ⟨0, []⟩ }) := by
  have hblock : c.completionWait.value = 0 →
      (c.completionWait.waiters = [] ∨ c.completionWait.waiters = [t]) →
      todo = .down :: rest ∧ c' = { c with completionWait := ⟨0, [t]⟩ } := by
    intro hvalue hwaiters
    simp only [Channel.exec] at hexec
    split at hexec
    · exact absurd hexec (by simp)
    · rename_i hasleep
      have hnil : c.completionWait.waiters = [] := by
        refine hwaiters.resolve_right fun hw => hasleep ?_
        rw [hw]
        exact List.mem_singleton_self t
      have hdown : semaDown c.completionWait t = (⟨0, [t]⟩, false) := by
        unfold semaDown
        rw [if_pos hvalue, hnil, ← hvalue]
        rfl
      rw [hdown] at hexec
      obtain ⟨rfl, rfl⟩ := Prod.mk.inj (Option.some.inj hexec)
      exact ⟨rfl, rfl⟩
  cases h with
  | pending hintrq hvalue hwaiters =>
      obtain ⟨rfl, rfl⟩ := hblock hvalue hwaiters
      exact .inl ⟨rfl, _, rfl, .pending hintrq rfl (.inr rfl)⟩
  | raised hintrq hvalue hwaiters =>
      obtain ⟨rfl, rfl⟩ := hblock hvalue hwaiters
      exact .inl ⟨rfl, _, rfl, .raised hintrq rfl (.inr rfl)⟩
  | handled hintrq hsema =>
      have hdown : semaDown c.completionWait t = (⟨0, []⟩, true) := by
        have hone : (1 : UInt32) ≠ 0 ∧ (1 : UInt32) - 1 = 0 := by decide
        unfold semaDown
        rw [hsema, if_neg hone.1, hone.2]
      have hawake : t ∉ c.completionWait.waiters := by
        rw [hsema]
        exact List.not_mem_nil
      simp only [Channel.exec, if_neg hawake, hdown] at hexec
      obtain ⟨rfl, rfl⟩ := Prod.mk.inj (Option.some.inj hexec)
      exact .inr ⟨rfl, rfl, hintrq, rfl⟩

omit [DecidableEq Tid] in
/-- The handler, where a completion is expected: the interrupt has been raised, and from then
on the semaphore has its unit. -/
theorem Awaits.interrupt {b : Bool} (h : Awaits t c b) (hexpecting : c.expectingInterrupt = true)
    (hi : c.interrupt = some c') :
    b = true ∧ c' = { c with intrq := false, completionWait := ⟨1, []⟩ } ∧ Awaits t c' true := by
  unfold Channel.interrupt at hi
  cases h with
  | pending hintrq =>
      rw [hintrq] at hi
      exact absurd hi (by simp)
  | handled hintrq =>
      rw [hintrq] at hi
      exact absurd hi (by simp)
  | raised hintrq hvalue hwaiters =>
      have hup : (semaUp c.completionWait).1 = ⟨1, []⟩ := by
        unfold semaUp
        rcases hwaiters with hw | hw
        · rw [hw, hvalue]
          rfl
        · rw [hw, hvalue]
          rfl
      rw [hintrq] at hi
      obtain rfl := Option.some.inj hi
      have hc' : c.interruptHandler = { c with intrq := false, completionWait := ⟨1, []⟩ } := by
        unfold Channel.interruptHandler
        rw [if_pos hexpecting, hup]
        rfl
      refine ⟨rfl, hc', ?_⟩
      rw [hc']
      exact .handled rfl rfl

omit [DecidableEq Tid] in
/-- The controller raises the interrupt. -/
theorem Awaits.raise (h : Awaits t c false) (phase : Phase Sector) (d : Bool × Nat → Sector) :
    Awaits t { c with phase, disk := d, intrq := true } true := by
  cases h with
  | pending hintrq hvalue hwaiters => exact .raised rfl hvalue hwaiters

omit [DecidableEq Tid] in
theorem Awaits.live {b : Bool} (h : Awaits t c b) (hb : b = true) :
    (c.interrupt).isSome ∨ c.intrq = false ∧ c.completionWait = ⟨1, []⟩ := by
  cases h with
  | pending => exact absurd hb (by decide)
  | raised hintrq =>
      refine .inl ?_
      unfold Channel.interrupt
      rw [hintrq]
      rfl
  | handled hintrq hsema => exact .inr ⟨hintrq, hsema⟩

/-! ### One step -/

theorem ready_bits : ((STA_DRDY ||| STA_DRQ) &&& STA_BSY = 0) = True ∧
    ((STA_DRDY ||| STA_DRQ) &&& STA_DRQ = 0) = False := by
  decide

theorem busy_bits : (STA_BSY &&& STA_BSY = 0) = False := by
  decide

/-- **The driver** keeps the invariant. The case is the place of the code, in the order of the
instructions; in each, the instruction is run and the next place is established. The registers
are written in the places where the controller is idle, and the data transferred where it has
asked for them. -/
theorem At.exec {code : List (Instr Sector)} {i : Instr Sector} (h : At disk t r c code)
    (hcode : code = i :: rest) (hexec : c.exec t r rest i = some (todo, c')) :
    At disk t r c' todo := by
  cases h with
  | @select todo' rest' hsuffix hrest hidle haddress =>
      cases todo' with
      | nil =>
          obtain ⟨rfl, rfl⟩ := List.cons.inj hcode
          obtain ⟨rfl, rfl⟩ := Prod.mk.inj (Option.some.inj hexec)
          exact .command hrest ⟨hidle.phase, hidle.intrq, hidle.sema, hidle.clean, hidle.legal, hidle.disk⟩
            ⟨haddress, rfl, hidle.clean, hidle.legal⟩
      | cons i' todo' =>
          obtain ⟨rfl, rfl⟩ := List.cons.inj hcode
          have htail : todo' <:+ selectSector r.devNo r.secNo :=
            (List.suffix_cons i' todo').trans hsuffix
          rcases mem_selectSector (hsuffix.subset List.mem_cons_self) with rfl | ⟨reg, v, rfl⟩
          · have hstatus : c.phase.status &&& (STA_BSY ||| STA_DRQ) = 0 := by
              rw [hidle.phase]
              exact (by decide : STA_DRDY &&& (STA_BSY ||| STA_DRQ) = 0)
            simp only [Channel.exec, hstatus, if_true] at hexec
            obtain ⟨rfl, rfl⟩ := Prod.mk.inj (Option.some.inj hexec)
            exact .select htail hrest
              ⟨hidle.phase, rfl, hidle.sema, hidle.clean, hidle.legal, hidle.disk⟩ haddress
          · simp only [Channel.exec, Channel.outb, hidle.phase] at hexec
            obtain ⟨rfl, rfl⟩ := Prod.mk.inj (Option.some.inj hexec)
            exact .select htail hrest
              ⟨rfl, hidle.intrq, hidle.sema, hidle.clean, hidle.legal, hidle.disk⟩ haddress
  | command hrest hidle hunder =>
      rcases code_cases r hrest with ⟨hread, rfl⟩ | ⟨data, hwrite, rfl⟩
      · obtain ⟨rfl, rfl⟩ := List.cons.inj hcode
        simp only [Channel.exec, Channel.outbCommand, hidle.phase, if_true] at hexec
        obtain ⟨rfl, rfl⟩ := Prod.mk.inj (Option.some.inj hexec)
        have hawaits : Awaits t { c with phase := .reading } false :=
          .pending hidle.intrq (congrArg Semaphore.value hidle.sema)
            (.inl (congrArg Semaphore.waiters hidle.sema))
        exact .read hread ⟨hunder.address, hunder.expecting, hunder.clean, hunder.legal⟩ hidle.disk
          (.inl ⟨rfl, hawaits⟩)
      · obtain ⟨rfl, rfl⟩ := List.cons.inj hcode
        have hne : CMD_WRITE_SECTOR_RETRY ≠ CMD_READ_SECTOR_RETRY := by decide
        simp only [Channel.exec, Channel.outbCommand, hidle.phase, if_neg hne, if_true] at hexec
        obtain ⟨rfl, rfl⟩ := Prod.mk.inj (Option.some.inj hexec)
        exact .write hwrite ⟨hunder.address, hunder.expecting, hunder.clean, hunder.legal⟩ hidle.disk (by decide)
          (.inl rfl) hidle.intrq hidle.sema
  | read hread hunder hdisk hphase =>
      obtain ⟨rfl, rfl⟩ := List.cons.inj hcode
      rcases hphase with ⟨hreading, hawaits⟩ | ⟨hdata, hawaits⟩
      · rcases hawaits.down hexec with ⟨rfl, sema, rfl, hawaits'⟩ | ⟨-, hb, -⟩
        · exact .read hread ⟨hunder.address, hunder.expecting, hunder.clean, hunder.legal⟩ hdisk
            (.inl ⟨hreading, hawaits'⟩)
        · exact absurd hb (by decide)
      · rcases hawaits.down hexec with ⟨rfl, sema, rfl, hawaits'⟩ | ⟨rfl, -, hintrq, rfl⟩
        · exact .read hread ⟨hunder.address, hunder.expecting, hunder.clean, hunder.legal⟩ hdisk
            (.inr ⟨hdata, hawaits'⟩)
        · exact .readBusy hread ⟨hunder.address, hunder.expecting, hunder.clean, hunder.legal⟩ hdisk hdata
            hintrq rfl
  | readBusy hread hunder hdisk hphase hintrq hsema =>
      obtain ⟨rfl, rfl⟩ := List.cons.inj hcode
      simp only [Channel.exec, hphase, Phase.status, ready_bits, if_true, if_false] at hexec
      obtain ⟨rfl, rfl⟩ := Prod.mk.inj (Option.some.inj hexec)
      exact .input hread hunder hdisk hphase hintrq hsema
  | input hread hunder hdisk hphase hintrq hsema =>
      obtain ⟨rfl, rfl⟩ := List.cons.inj hcode
      simp only [Channel.exec, hphase] at hexec
      obtain ⟨rfl, rfl⟩ := Prod.mk.inj (Option.some.inj hexec)
      refine .done ⟨rfl, hintrq, hsema, hunder.clean, hunder.legal.snoc fun _ => ?_, ?_⟩
      · exact congrFun hdisk _
      · rw [replay_snoc, effect, hread]
        exact hdisk
  | @write data i hwrite hunder hdisk hi hphase hintrq hsema =>
      obtain ⟨rfl, rfl⟩ := List.cons.inj hcode
      rcases hphase with hpreparing | hout
      · simp only [Channel.exec, hpreparing, Phase.status, busy_bits, if_false] at hexec
        split at hexec
        · rename_i hi'
          obtain ⟨rfl, rfl⟩ := Prod.mk.inj (Option.some.inj hexec)
          exact .write hwrite hunder hdisk hi' (.inl hpreparing) hintrq hsema
        · exact absurd hexec (by simp)
      · simp only [Channel.exec, hout, Phase.status, ready_bits, if_true, if_false] at hexec
        obtain ⟨rfl, rfl⟩ := Prod.mk.inj (Option.some.inj hexec)
        exact .output hwrite hunder hdisk hout hintrq hsema
  | @output data hwrite hunder hdisk hphase hintrq hsema =>
      obtain ⟨rfl, rfl⟩ := List.cons.inj hcode
      simp only [Channel.exec, hphase] at hexec
      obtain ⟨rfl, rfl⟩ := Prod.mk.inj (Option.some.inj hexec)
      have hlegal : Legal disk (c.log ++ [(t, r, data)]) :=
        hunder.legal.snoc fun hread => absurd (hread.symm.trans hwrite) (by simp)
      have hawaits :
          Awaits t { c with phase := .writing data, log := c.log ++ [(t, r, data)] } false :=
        .pending hintrq (congrArg Semaphore.value hsema) (.inl (congrArg Semaphore.waiters hsema))
      exact .written hwrite ⟨hunder.address, hunder.expecting, hunder.clean, hlegal⟩
        (.inl ⟨rfl, hawaits, c.log, rfl, hdisk⟩)
  | written hwrite hunder hphase =>
      obtain ⟨rfl, rfl⟩ := List.cons.inj hcode
      rcases hphase with ⟨hwriting, hawaits, hlog⟩ | ⟨hidle, hawaits, hdisk⟩
      · rcases hawaits.down hexec with ⟨rfl, sema, rfl, hawaits'⟩ | ⟨-, hb, -⟩
        · exact .written hwrite ⟨hunder.address, hunder.expecting, hunder.clean, hunder.legal⟩
            (.inl ⟨hwriting, hawaits', hlog⟩)
        · exact absurd hb (by decide)
      · rcases hawaits.down hexec with ⟨rfl, sema, rfl, hawaits'⟩ | ⟨rfl, -, hintrq, rfl⟩
        · exact .written hwrite ⟨hunder.address, hunder.expecting, hunder.clean, hunder.legal⟩
            (.inr ⟨hidle, hawaits', hdisk⟩)
        · exact .done ⟨hidle, hintrq, rfl, hunder.clean, hunder.legal, hdisk⟩
  | done hidle => exact absurd hcode (by simp)

omit [DecidableEq Tid] in
theorem Idle.no_event (h : Idle disk c) : c.answer = none ∧ c.interrupt = none := by
  unfold Channel.answer Channel.interrupt
  rw [h.phase, h.intrq]
  exact ⟨rfl, rfl⟩

omit [DecidableEq Tid] in
/-- **The controller** keeps the invariant. It has something to do only in the places behind a
command, and what it does there is what the place expects of it: it asks for data or offers
them, or it raises the interrupt. -/
theorem At.answer {code : List (Instr Sector)} (h : At disk t r c code) (he : c.answer = some c') :
    At disk t r c' code := by
  have hdata : ∀ {data : Sector}, c.phase = .dataIn data → False := by
    intro data hphase
    unfold Channel.answer at he
    rw [hphase] at he
    exact absurd he (by simp)
  cases h with
  | select _ _ hidle => exact absurd (hidle.no_event.1.symm.trans he) (by simp)
  | command _ hidle => exact absurd (hidle.no_event.1.symm.trans he) (by simp)
  | read hread hunder hdisk hphase =>
      rcases hphase with ⟨hreading, hawaits⟩ | ⟨hphase, -⟩
      · simp only [Channel.answer, hreading, hunder.address] at he
        obtain rfl := Option.some.inj he
        exact .read hread ⟨hunder.address, hunder.expecting, hunder.clean, hunder.legal⟩ hdisk
          (.inr ⟨rfl, hawaits.raise _ _⟩)
      · exact absurd hphase hdata
  | readBusy _ _ _ hphase => exact absurd hphase hdata
  | input _ _ _ hphase => exact absurd hphase hdata
  | write hwrite hunder hdisk hi hphase hintrq hsema =>
      rcases hphase with hpreparing | hout
      · simp only [Channel.answer, hpreparing] at he
        obtain rfl := Option.some.inj he
        exact .write hwrite ⟨hunder.address, hunder.expecting, hunder.clean, hunder.legal⟩ hdisk hi (.inr rfl)
          hintrq hsema
      · simp only [Channel.answer, hout] at he
        exact absurd he (by simp)
  | output _ _ _ hphase =>
      simp only [Channel.answer, hphase] at he
      exact absurd he (by simp)
  | written hwrite hunder hphase =>
      rcases hphase with ⟨hwriting, hawaits, log, hlog, hdisk⟩ | ⟨hidle, -, -⟩
      · simp only [Channel.answer, hwriting, hunder.address] at he
        obtain rfl := Option.some.inj he
        refine .written hwrite ⟨hunder.address, hunder.expecting, hunder.clean, hunder.legal⟩
          (.inr ⟨rfl, hawaits.raise _ _, ?_⟩)
        show update c.disk _ _ = replay disk c.log
        rw [hlog, replay_snoc, effect, hwrite, hdisk]
      · simp only [Channel.answer, hidle] at he
        exact absurd he (by simp)
  | done hidle => exact absurd (hidle.no_event.1.symm.trans he) (by simp)

omit [DecidableEq Tid] in
/-- **The interrupt handler** keeps the invariant. -/
theorem At.interrupt {code : List (Instr Sector)} (h : At disk t r c code)
    (he : c.interrupt = some c') : At disk t r c' code := by
  have hraised : c.intrq = false → False := by
    intro hintrq
    unfold Channel.interrupt at he
    rw [hintrq] at he
    exact absurd he (by simp)
  cases h with
  | select _ _ hidle => exact absurd hidle.intrq hraised
  | command _ hidle => exact absurd hidle.intrq hraised
  | read hread hunder hdisk hphase =>
      rcases hphase with ⟨hreading, hawaits⟩ | ⟨hdata, hawaits⟩
      · exact absurd (hawaits.interrupt hunder.expecting he).1 (by decide)
      · obtain ⟨-, rfl, hawaits'⟩ := hawaits.interrupt hunder.expecting he
        exact .read hread ⟨hunder.address, hunder.expecting, hunder.clean, hunder.legal⟩ hdisk
          (.inr ⟨hdata, hawaits'⟩)
  | readBusy _ _ _ _ hintrq => exact absurd hintrq hraised
  | input _ _ _ _ hintrq => exact absurd hintrq hraised
  | write _ _ _ _ _ hintrq => exact absurd hintrq hraised
  | output _ _ _ _ hintrq => exact absurd hintrq hraised
  | written hwrite hunder hphase =>
      rcases hphase with ⟨hwriting, hawaits, -⟩ | ⟨hidle, hawaits, hdisk⟩
      · exact absurd (hawaits.interrupt hunder.expecting he).1 (by decide)
      · obtain ⟨-, rfl, hawaits'⟩ := hawaits.interrupt hunder.expecting he
        exact .written hwrite ⟨hunder.address, hunder.expecting, hunder.clean, hunder.legal⟩
          (.inr ⟨hidle, hawaits', hdisk⟩)
  | done hidle => exact absurd hidle.intrq hraised

/-! ### Each request takes effect once -/

omit [DecidableEq Tid] in
theorem outbCommand_log (c : Channel Tid Sector) (v : UInt8) : (c.outbCommand v).log = c.log := by
  unfold Channel.outbCommand
  split
  · split
    · rfl
    · split <;> rfl
  · rfl

/-- Data are transferred by the two instructions for it alone, unless the controller is
garbled. -/
theorem exec_log {i : Instr Sector} (h : c.exec t r rest i = some (todo, c'))
    (hclean : c'.garbled = false) :
    isTransfer i = false ∧ c'.log = c.log ∧
        (todo = rest ∨ ∃ i', isTransfer i' = false ∧ todo = i' :: rest) ∨
      isTransfer i = true ∧ todo = rest ∧ ∃ data, c'.log = c.log ++ [(t, r, data)] := by
  cases i with
  | waitUntilIdle i =>
      simp only [Channel.exec] at h
      split at h
      · obtain ⟨rfl, rfl⟩ := Prod.mk.inj (Option.some.inj h)
        exact .inl ⟨rfl, rfl, .inl rfl⟩
      · split at h
        · obtain ⟨rfl, rfl⟩ := Prod.mk.inj (Option.some.inj h)
          exact .inl ⟨rfl, rfl, .inl rfl⟩
        · obtain ⟨rfl, rfl⟩ := Prod.mk.inj (Option.some.inj h)
          exact .inl ⟨rfl, rfl, .inr ⟨_, rfl, rfl⟩⟩
  | outb reg v =>
      obtain ⟨rfl, rfl⟩ := Prod.mk.inj (Option.some.inj h)
      refine .inl ⟨rfl, ?_, .inl rfl⟩
      unfold Channel.outb
      split <;> rfl
  | expect =>
      obtain ⟨rfl, rfl⟩ := Prod.mk.inj (Option.some.inj h)
      exact .inl ⟨rfl, rfl, .inl rfl⟩
  | command v =>
      obtain ⟨rfl, rfl⟩ := Prod.mk.inj (Option.some.inj h)
      exact .inl ⟨rfl, outbCommand_log c v, .inl rfl⟩
  | down =>
      simp only [Channel.exec] at h
      split at h
      · exact absurd h (by simp)
      · split at h
        · obtain ⟨rfl, rfl⟩ := Prod.mk.inj (Option.some.inj h)
          exact .inl ⟨rfl, rfl, .inl rfl⟩
        · obtain ⟨rfl, rfl⟩ := Prod.mk.inj (Option.some.inj h)
          exact .inl ⟨rfl, rfl, .inr ⟨_, rfl, rfl⟩⟩
  | waitWhileBusy i =>
      simp only [Channel.exec] at h
      split at h
      · split at h
        · exact absurd h (by simp)
        · obtain ⟨rfl, rfl⟩ := Prod.mk.inj (Option.some.inj h)
          exact .inl ⟨rfl, rfl, .inl rfl⟩
      · split at h
        · obtain ⟨rfl, rfl⟩ := Prod.mk.inj (Option.some.inj h)
          exact .inl ⟨rfl, rfl, .inr ⟨_, rfl, rfl⟩⟩
        · exact absurd h (by simp)
  | inputSector =>
      simp only [Channel.exec] at h
      split at h
      · obtain ⟨rfl, rfl⟩ := Prod.mk.inj (Option.some.inj h)
        exact .inr ⟨rfl, rfl, _, rfl⟩
      · obtain ⟨rfl, rfl⟩ := Prod.mk.inj (Option.some.inj h)
        exact absurd hclean (by simp [Channel.garble])
  | outputSector data =>
      simp only [Channel.exec] at h
      split at h
      · obtain ⟨rfl, rfl⟩ := Prod.mk.inj (Option.some.inj h)
        exact .inr ⟨rfl, rfl, _, rfl⟩
      · obtain ⟨rfl, rfl⟩ := Prod.mk.inj (Option.some.inj h)
        exact absurd hclean (by simp [Channel.garble])

omit [DecidableEq Tid] in
/-- Nothing is transferred twice. -/
theorem At.any_transfer {i : Instr Sector} (h : At disk t r c (i :: rest))
    (hi : isTransfer i = true) : rest.any isTransfer = false := by
  generalize hcode : i :: rest = code at h
  cases h with
  | @select todo _ hsuffix =>
      cases todo with
      | nil =>
          obtain ⟨rfl, -⟩ := List.cons.inj hcode
          exact absurd hi (by simp [isTransfer])
      | cons i' todo =>
          obtain ⟨rfl, -⟩ := List.cons.inj hcode
          rcases mem_selectSector (hsuffix.subset List.mem_cons_self) with rfl | ⟨reg, v, rfl⟩
          · exact absurd hi (by simp [isTransfer])
          · exact absurd hi (by simp [isTransfer])
  | command hrest =>
      rcases code_cases r hrest with ⟨-, rfl⟩ | ⟨data, -, rfl⟩
      · obtain ⟨rfl, rfl⟩ := List.cons.inj hcode
        exact absurd hi (by simp [isTransfer])
      · obtain ⟨rfl, rfl⟩ := List.cons.inj hcode
        exact absurd hi (by simp [isTransfer])
  | input =>
      obtain ⟨-, rfl⟩ := List.cons.inj hcode
      rfl
  | output =>
      obtain ⟨-, rfl⟩ := List.cons.inj hcode
      rfl
  | done => exact absurd hcode (by simp)
  | _ =>
      obtain ⟨rfl, -⟩ := List.cons.inj hcode
      exact absurd hi (by simp [isTransfer])

omit [DecidableEq Tid] in
/-- Wherever the code is, nothing went wrong so far. -/
theorem At.sound {code : List (Instr Sector)} (h : At disk t r c code) :
    c.garbled = false ∧ Legal disk c.log := by
  cases h with
  | select _ _ hidle => exact ⟨hidle.clean, hidle.legal⟩
  | command _ hidle => exact ⟨hidle.clean, hidle.legal⟩
  | done hidle => exact ⟨hidle.clean, hidle.legal⟩
  | read _ hunder => exact ⟨hunder.clean, hunder.legal⟩
  | readBusy _ hunder => exact ⟨hunder.clean, hunder.legal⟩
  | input _ hunder => exact ⟨hunder.clean, hunder.legal⟩
  | write _ hunder => exact ⟨hunder.clean, hunder.legal⟩
  | output _ hunder => exact ⟨hunder.clean, hunder.legal⟩
  | written _ hunder => exact ⟨hunder.clean, hunder.legal⟩

def Inside (disk : Bool × Nat → Sector) (t : Tid) (r : Request Sector) (k : Code Sector)
    (c : Channel Tid Sector) : Prop := k.request = r ∧ At disk t r c k.todo

/-- A step of the code is one of its next instruction. -/
theorem body_cases {k k' : Code Sector} (hin : Inside disk t r k c)
    (h : (ide Tid Sector).body t k c = some (k', c')) :
    ∃ i rest, k.todo = i :: rest ∧ At disk t r c (i :: rest) ∧
      c.exec t r rest i = some (k'.todo, c') ∧ k'.request = r := by
  obtain ⟨hr, hat⟩ := hin
  simp only [ide] at h
  split at h
  · exact absurd h (by simp)
  · rename_i i rest htodo
    obtain ⟨⟨todo, c₁⟩, hexec, heq⟩ := Option.map_eq_some_iff.mp h
    obtain ⟨rfl, rfl⟩ := Prod.mk.inj heq
    rw [hr] at hexec
    exact ⟨i, rest, htodo, htodo ▸ hat, hexec, hr⟩

/-- **The lock** of a channel protects the controller and the disks. What a thread finds when
it has the lock is `Idle`, which is where the code begins, and the code ends in `Idle` with
the request in the log; the handler and the controller keep both. -/
theorem ide_rule (disk : Bool × Nat → Sector) :
    Monitor.Rule (ide Tid Sector) (Idle disk) (Inside disk) where
  enter t r c hidle := by
    refine ⟨rfl, ?_⟩
    have hcode : ∃ rest, r.code = selectSector r.devNo r.secNo ++ .expect :: rest := by
      unfold Request.code
      cases hdata : r.data with
      | none => exact ⟨_, List.append_assoc ..⟩
      | some data => exact ⟨_, List.append_assoc ..⟩
    obtain ⟨rest, hrest⟩ := hcode
    show At disk t r c r.code
    rw [hrest]
    exact .select (List.suffix_refl _) hrest hidle (address_selectSector r.devNo r.small c.regs)
  body t r k c k' c' hin h := by
    obtain ⟨i, rest, htodo, hat, hexec, hr⟩ := body_cases hin h
    exact ⟨hr, hat.exec rfl hexec⟩
  leave t r k c hin hfin := by
    obtain ⟨-, hat⟩ := hin
    have hnil : k.todo = [] := List.isEmpty_iff.mp hfin
    rw [hnil] at hat
    refine ⟨?_, ?_⟩
    · generalize hcode : ([] : List (Instr Sector)) = code at hat
      cases hat with
      | done hidle => exact hidle
      | command hrest =>
          rcases code_cases r hrest with ⟨-, rfl⟩ | ⟨data, -, rfl⟩ <;>
            exact absurd hcode (by simp)
      | _ => exact absurd hcode (by simp)
    · show (!k.todo.any isTransfer) = true
      rw [hnil]
      rfl
  quietEvent e c c' hidle h := by
    cases e with
    | answer => exact absurd (hidle.no_event.1.symm.trans h) (by simp)
    | interrupt => exact absurd (hidle.no_event.2.symm.trans h) (by simp)
  insideEvent t r k e c c' hin h := by
    cases e with
    | answer => exact ⟨hin.1, hin.2.answer h⟩
    | interrupt => exact ⟨hin.1, hin.2.interrupt h⟩
  served t r k c k' c' hin h := by
    obtain ⟨i, rest, htodo, hat, hexec, -⟩ := body_cases hin h
    show (!k'.todo.any isTransfer) = (!k.todo.any isTransfer) ∧ _ ∨ _
    rw [htodo]
    rcases exec_log hexec (hat.exec rfl hexec).sound.1 with ⟨hi, hlog, hrest⟩ | ⟨hi, hrest, data, hlog⟩
    · refine .inl ⟨?_, ?_⟩
      · rcases hrest with hrest | ⟨i', hi', hrest⟩
        · rw [hrest, List.any_cons, hi, Bool.false_or]
        · rw [hrest, List.any_cons, List.any_cons, hi, hi']
      · funext u
        simp only [ide, hlog]
    · refine .inr ⟨?_, ?_, ?_⟩
      · show (!k.todo.any isTransfer) = false
        rw [htodo, List.any_cons, hi]
        rfl
      · show (!k'.todo.any isTransfer) = true
        rw [hrest, hat.any_transfer hi]
        rfl
      · funext u
        simp only [ide, hlog, List.filterMap_append]
        by_cases hu : u = t
        · subst hu
          simp
        · rw [Function.update_of_ne hu]
          simp [Ne.symm hu]
  start r := by
    show (!r.code.any isTransfer) = false
    unfold Request.code
    cases r.data <;> simp [ideRead, ideWrite, isTransfer]
  eventServed e c c' h := by
    have hlog : c'.log = c.log := by
      cases e with
      | answer =>
          simp only [ide, Channel.answer] at h
          split at h
          · obtain ⟨a, -, rfl⟩ := Option.map_eq_some_iff.mp h
            rfl
          · obtain rfl := Option.some.inj h
            rfl
          · obtain ⟨a, -, rfl⟩ := Option.map_eq_some_iff.mp h
            rfl
          · exact absurd h (by simp)
      | interrupt =>
          simp only [ide, Channel.interrupt] at h
          split at h
          · obtain rfl := Option.some.inj h
            unfold Channel.interruptHandler
            split <;> rfl
          · exact absurd h (by simp)
    funext u
    simp only [ide, hlog]

/-- The code waits for nothing that cannot happen. In each place the next instruction can be
executed, or else the controller or the handler has a step: a thread that is blocked has given
a command, and the interrupt that wakes it is on its way. -/
theorem ide_live (disk : Bool × Nat → Sector) : Monitor.Live (ide Tid Sector) (Inside disk) := by
  rintro t r k c ⟨-, hat⟩
  have hbody : ∀ {i rest}, k.todo = i :: rest → (c.exec t k.request rest i).isSome →
      ((ide Tid Sector).body t k c).isSome := by
    intro i rest htodo hexec
    simp only [ide, htodo, Option.isSome_map]
    exact hexec
  have hdown : ∀ {rest : List (Instr Sector)}, c.completionWait = ⟨1, []⟩ →
      (c.exec t k.request rest .down).isSome := by
    intro rest hsema
    have hawake : t ∉ c.completionWait.waiters := by
      rw [hsema]
      exact List.not_mem_nil
    simp only [Channel.exec, if_neg hawake]
    split <;> rfl
  have hinterrupt : ∀ {rest : List (Instr Sector)}, k.todo = .down :: rest → Awaits t c true →
      ((ide Tid Sector).body t k c).isSome ∨ ∃ e, ((ide Tid Sector).event e c).isSome := by
    intro rest htodo hawaits
    rcases hawaits.live rfl with hi | ⟨-, hsema⟩
    · exact .inr ⟨.interrupt, hi⟩
    · exact .inl (hbody htodo (hdown hsema))
  generalize hcode : k.todo = code at hat
  cases hat with
  | @select todo rest hsuffix hrest hidle =>
      refine .inr (.inl ?_)
      cases todo with
      | nil => exact hbody hcode rfl
      | cons i todo =>
          refine hbody hcode ?_
          rcases mem_selectSector (hsuffix.subset List.mem_cons_self) with rfl | ⟨reg, v, rfl⟩
          · simp only [Channel.exec]
            split
            · rfl
            · split <;> rfl
          · rfl
  | command hrest _ =>
      refine .inr (.inl ?_)
      rcases code_cases r hrest with ⟨-, rfl⟩ | ⟨data, -, rfl⟩
      · exact hbody hcode rfl
      · exact hbody hcode rfl
  | read hread hunder hdisk hphase =>
      refine .inr ?_
      rcases hphase with ⟨hreading, -⟩ | ⟨-, hawaits⟩
      · refine .inr ⟨.answer, ?_⟩
        simp [ide, Channel.answer, hreading, hunder.address]
      · exact hinterrupt hcode hawaits
  | readBusy hread hunder hdisk hphase =>
      refine .inr (.inl (hbody hcode ?_))
      simp only [Channel.exec, hphase, Phase.status, ready_bits, if_true, if_false]
      rfl
  | input hread hunder hdisk hphase =>
      refine .inr (.inl (hbody hcode ?_))
      simp only [Channel.exec, hphase]
      rfl
  | write hwrite hunder hdisk hi hphase =>
      refine .inr ?_
      rcases hphase with hpreparing | hout
      · refine .inr ⟨.answer, ?_⟩
        simp [ide, Channel.answer, hpreparing]
      · refine .inl (hbody hcode ?_)
        simp only [Channel.exec, hout, Phase.status, ready_bits, if_true, if_false]
        rfl
  | output hwrite hunder hdisk hphase =>
      refine .inr (.inl (hbody hcode ?_))
      simp only [Channel.exec, hphase]
      rfl
  | written hwrite hunder hphase =>
      refine .inr ?_
      rcases hphase with ⟨hwriting, -⟩ | ⟨-, hawaits, -⟩
      · refine .inr ⟨.answer, ?_⟩
        simp [ide, Channel.answer, hwriting, hunder.address]
      · exact hinterrupt hcode hawaits
  | done => exact .inl (List.isEmpty_iff.mpr hcode)

/-! ### Every run -/

/-- A channel after `ide_init`, with these disks. -/
def init (disk : Bool × Nat → Sector) : Channel Tid Sector where
  regs _ := 0
  phase := .idle
  intrq := false
  disk
  expectingInterrupt := false
  completionWait := semaInit 0
  garbled := false
  log := []

variable [Fintype Tid]

/-- **Disks are linearisable.** Whatever threads read and write which sectors, and whenever the
controller answers, each request takes effect once, in its thread's order, a read gets what was
last written to its sector, no register is written while the controller is busy, and nothing gets
stuck. -/
theorem ide_linearisable (disk : Bool × Nat → Sector)
    {ts : List (Transition (MonitorSys Tid (Request Sector) (Code Sector) (Channel Tid Sector))
      (MonitorAct Tid (Request Sector) Event))}
    (hrun : Run (Monitor.Step (ide Tid Sector)) (Monitor.boot (init disk)) ts) : ∀ τ ∈ ts,
      Legal disk τ.post.shared.log ∧ τ.post.shared.garbled = false ∧
      (∀ t, ∃ rest, τ.post.begun t = (ide Tid Sector).servedBy τ.post.shared t ++ rest ∧
        (rest = [] ∨ ∃ r k, τ.post.call t = some (r, k) ∧ rest = [r])) ∧
      ((∀ t, τ.post.lock.pc t ≠ .held) →
        τ.post.shared.disk = replay disk τ.post.shared.log) ∧
      ((∃ t, τ.post.call t ≠ none) →
        ∃ a : MonitorAct Tid (Request Sector) Event, a.continues = true ∧
          (Monitor.step (ide Tid Sector) τ.post a).isSome) := by
  intro τ hτ
  have hrule : Monitor.Rule (ide Tid Sector) (Idle disk) (Inside disk) := ide_rule disk
  have hinit : Idle disk (init disk : Channel Tid Sector) :=
    ⟨rfl, rfl, rfl, rfl, fun _ _ _ h => absurd h (by simp [init]), rfl⟩
  have hinv := (hrun.invariant (I := Monitor.Inv (ide Tid Sector) (Idle disk) (Inside disk))
    (fun _ _ _ h hs => hrule.step h hs) (Monitor.boot_inv hinit fun _ => rfl) τ hτ).2
  have hsound : τ.post.shared.garbled = false ∧ Legal disk τ.post.shared.log := by
    by_cases hheld : ∃ t, τ.post.lock.pc t = .held
    · obtain ⟨t, ht⟩ := hheld
      cases hcall : τ.post.call t with
      | none => exact absurd ((hinv.idle t hcall).symm.trans ht) (by decide)
      | some rk => exact (hinv.inside t rk.1 rk.2 hcall ht).2.sound
    · have hidle := hinv.quiet fun t ht => hheld ⟨t, ht⟩
      exact ⟨hidle.clean, hidle.legal⟩
  refine ⟨hsound.2, hsound.1, fun t => ⟨_, hinv.order t, ?_⟩, fun hnone => (hinv.quiet hnone).disk,
    fun ⟨t, ht⟩ => hinv.progress (ide_live disk) ht⟩
  · cases hcall : τ.post.call t with
    | none => exact .inl rfl
    | some rk =>
        obtain ⟨r, k⟩ := rk
        unfold Monitor.pending
        by_cases hserved : (ide Tid Sector).served k = true
        · exact .inl (if_pos hserved)
        · exact .inr ⟨r, k, rfl, if_neg hserved⟩

/-- One thread writes a sector and another one, which has to wait for the lock, reads it. -/
def sampleActs : List (MonitorAct Bool (Request Nat) Event) :=
  List.flatten
    [[.begin true ⟨true, 0x123456, some 7, by decide⟩,
        .begin false ⟨true, 0x123456, none, by decide⟩,
        .lock true .acquire, .lock false .acquire, .lock true .setHolder],
      List.replicate 11 (.run true),
      [.event .answer, .run true, .run true, .run true, .event .answer, .event .interrupt,
        .run true, .lock true .release, .lock true .up, .lock false .acquire,
        .lock false .setHolder],
      List.replicate 11 (.run false),
      [.event .answer, .event .interrupt, .run false, .run false, .run false]]

theorem ide_linearisable_sample :
    (Run.trace (Monitor.step (ide Bool Nat)) (Monitor.boot (init fun _ => 0)) sampleActs).Forall
      fun τ => Legal (fun _ => 0) τ.post.shared.log ∧ τ.post.shared.garbled = false ∧
      (∀ t, ∃ rest, τ.post.begun t = (ide Bool Nat).servedBy τ.post.shared t ++ rest ∧
        (rest = [] ∨ ∃ r k, τ.post.call t = some (r, k) ∧ rest = [r])) ∧
      ((∀ t, τ.post.lock.pc t ≠ .held) →
        τ.post.shared.disk = replay (fun _ => 0) τ.post.shared.log) ∧
      ((∃ t, τ.post.call t ≠ none) →
        ∃ a : MonitorAct Bool (Request Nat) Event, a.continues = true ∧
          (Monitor.step (ide Bool Nat) τ.post a).isSome) :=
  List.forall_iff_forall_mem.mpr (ide_linearisable (fun _ => 0)
    (Run.of_trace (Monitor.step (ide Bool Nat)) (Monitor.boot (init fun _ => 0)) sampleActs))

end OsTools.Devices.Ide

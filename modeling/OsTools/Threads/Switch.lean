import OsTools.Lib.Processor
import OsTools.Lib.Run
import OsTools.Vm.Vaddr
/-!
# OsTools.Threads.Switch

The switch from one thread to another: `threads/switch.S`, the stack that
`thread_create` prepares for it, and `running_thread`, which finds the running
thread by rounding down the stack pointer.

A `Context` is what a thread needs to have back: the registers that the ABI makes
callee-saved, where to go on, and the contents of its stack. `Saved` says that the
page of a thread holds one. What else the running thread does is arbitrary, except
that it leaves the saved stacks of others alone.

## Proof shape

`switch_threads` is executed instruction by instruction, in two halves. The first one pushes
the registers and stores the stack pointer, with which the page of the old thread holds its
context (`Called.save`). The second one loads the stack pointer of the new thread and pops,
which is right for any page that holds a context (`Saved.restore`). That `thread_create`
prepares such a page by hand (`threadCreate_saved`) makes new threads a case like any other,
with `switch_entry` as the place where they go on.

The invariant of a run is that the page of every thread but the running one holds a context.
A particular context that waits (`Waits`) is kept by every step but the switch to its thread
(`Waits.step`), so that by induction over the run the thread goes on with it.
-/

namespace OsTools.Threads

open OsTools.Vm (PGSIZE pgRoundDown)

/-- `offsetof (struct thread, stack)`. -/
def threadStackOfs : UInt32 := 24

/-- `sizeof (struct thread)`. -/
def sizeofThread : Nat := 56

def THREAD_MAGIC : UInt32 := 0xcd6abf4b
def SWITCH_CUR : UInt32 := 20
def SWITCH_NEXT : UInt32 := 24

def switchThreads : List Instr :=
  [.pushl .ebx, .pushl .ebp, .pushl .esi, .pushl .edi,
    .movSym threadStackOfs .edx,
    .movFrom SWITCH_CUR .esp .eax, .movToIndexed .esp .eax .edx,
    .movFrom SWITCH_NEXT .esp .ecx, .movFromIndexed .ecx .edx .esp,
    .popl .edi, .popl .esi, .popl .ebp, .popl .ebx, .ret]

/-- Addresses of code; `afterTail` is that of the instruction after the call in
`switch_entry`. -/
structure Symbols where
  switchThreads : UInt32
  switchEntry : UInt32
  afterTail : UInt32
  threadSwitchTail : UInt32
  kernelThread : UInt32

/-- `switch_entry` up to its call. -/
def switchEntry (sym : Symbols) : List Instr :=
  [.addl 8 .esp, .pushl .eax, .call sym.threadSwitchTail sym.afterTail]

/-- `switch_entry` after its call. -/
def switchEntryEnd : List Instr := [.addl 4 .esp, .ret]

def runningThread (m : Processor) : Nat := pgRoundDown m.sp

/-! ### Creating a thread -/

def isThread (m : Mem) (t : Nat) : Bool := t ≠ 0 && m.word (t + 52) = THREAD_MAGIC

/-- The bytes that `strlcpy` writes. -/
def strlcpy (name : List UInt8) (size : Nat) : List UInt8 := name.take (size - 1) ++ [0]

/-- `init_thread`, on the page of `t`, without `all_list`. -/
def initThread (m : Mem) (t : Nat) (name : List UInt8) (priority : Nat) : Option Mem :=
  if t = 0 ∨ 63 < priority then none
  else
    let m := m.fill t sizeofThread 0
    let m := m.setWord (t + 4) 2
    let name := strlcpy name 16
    let m := m.blit (t + 8) name.length fun i => name.getD i 0
    let m := m.setWord (t + 24) (UInt32.ofNat (t + PGSIZE))
    let m := m.setWord (t + 28) (UInt32.ofNat priority)
    let m := m.setWord (t + 48) 0
    some (m.setWord (t + 52) THREAD_MAGIC)

/-- `alloc_frame`, which returns the base of the frame. -/
def allocFrame (m : Mem) (t size : Nat) : Option (Mem × Nat) :=
  if isThread m t ∧ size % 4 = 0 then
    let stack := m.word (t + 24) - UInt32.ofNat size
    some (m.setWord (t + 24) stack, stack.toNat)
  else none

/-- `thread_create` between `palloc_get_page` and `thread_unblock`. -/
def threadCreate (sym : Symbols) (m : Mem) (t : Nat) (name : List UInt8) (priority : Nat)
    (tid function aux : UInt32) : Option Mem := do
  guard (function ≠ 0)
  let m ← initThread (m.fill t PGSIZE 0) t name priority
  let m := m.setWord t tid
  let (m, kf) ← allocFrame m t 12
  let m := m.setWord kf 0
  let m := m.setWord (kf + 4) function
  let m := m.setWord (kf + 8) aux
  let (m, ef) ← allocFrame m t 4
  let m := m.setWord ef sym.kernelThread
  let (m, sf) ← allocFrame m t 28
  let m := m.setWord (sf + 16) sym.switchEntry
  some (m.setWord (sf + 8) 0)

/-! ### Contexts -/

/-- The callee-saved registers, in the order in which they are popped. -/
def calleeSaved : List Reg := [.edi, .esi, .ebp, .ebx]

structure Context where
  reg : Reg → UInt32
  eip : UInt32
  sp : Nat
  stack : Mem

/-- A page for a thread. -/
structure IsPage (t : Nat) : Prop where
  aligned : t % PGSIZE = 0
  pos : 0 < t
  lt : t + PGSIZE < 2 ^ 32

/-- The page of `t` holds the context `c`, for `switch_threads` to restore. -/
structure Saved (m : Mem) (t : Nat) (c : Context) : Prop where
  pointer : (m.word (t + 24)).toNat + 20 = c.sp
  low : t + sizeofThread + 20 ≤ c.sp
  high : c.sp + 8 ≤ t + PGSIZE
  frame : m.Words (c.sp - 20) (calleeSaved.map c.reg ++ [c.eip])
  stack : ∀ x, c.sp ≤ x → x < t + PGSIZE → m x = c.stack x

/-- The machine goes on in the context `c`, on the stack of `t`. -/
structure Resumes (m : Processor) (t : Nat) (c : Context) : Prop where
  sp : m.sp = c.sp
  eip : m.eip = c.eip
  reg : ∀ r ∈ calleeSaved, m.reg r = c.reg r
  stack : ∀ x, c.sp ≤ x → x < t + PGSIZE → m.mem x = c.stack x
  running : runningThread m = t

/-- The context of the caller, on entry to a function. -/
def callerContext (m : Processor) : Context := ⟨m.reg, m.top, m.sp + 4, m.mem⟩

variable {m m' : Processor} {mem mem' : Mem} {t u : Nat} {c : Context} {sym : Symbols}

/-- The bytes that a saved context rests on. -/
def Protects (mem : Mem) (t x : Nat) : Prop :=
  (t + 24 ≤ x ∧ x < t + 28) ∨ ((mem.word (t + 24)).toNat ≤ x ∧ x < t + PGSIZE)

theorem Saved.congr (h : Saved mem t c) (heq : ∀ x, Protects mem t x → mem' x = mem x) :
    Saved mem' t c := by
  have hptr := h.pointer
  have hlow := h.low
  have hhigh := h.high
  have hword : mem'.word (t + 24) = mem.word (t + 24) :=
    Mem.word_congr fun x hl hu => heq x (Or.inl ⟨hl, by omega⟩)
  refine ⟨by rw [hword, hptr], hlow, hhigh, h.frame.congr fun x hl hu => ?_, fun x hl hu => ?_⟩
  · refine heq x (Or.inr ⟨by omega, ?_⟩)
    rw [show (calleeSaved.map c.reg ++ [c.eip]).length = 5 from rfl] at hu
    omega
  · rw [heq x (Or.inr ⟨by omega, hu⟩)]
    exact h.stack x hl hu

theorem protects_page (h : Saved mem t c) {x : Nat} (hx : Protects mem t x) :
    t ≤ x ∧ x < t + PGSIZE := by
  have hptr := h.pointer
  have hlow := h.low
  have hhigh := h.high
  unfold Protects sizeofThread PGSIZE at *
  omega

theorem runningThread_eq (ht : IsPage t) (hl : t ≤ m.sp) (hu : m.sp < t + PGSIZE) :
    runningThread m = t := by
  have := ht.aligned
  unfold runningThread pgRoundDown PGSIZE at *
  omega

theorem running_le : runningThread m ≤ m.sp ∧ m.sp < runningThread m + PGSIZE := by
  unfold runningThread pgRoundDown PGSIZE
  omega

/-- Distinct pages do not overlap. -/
theorem IsPage.disjoint (ht : IsPage t) (hu : IsPage u) (hne : t ≠ u) :
    t + PGSIZE ≤ u ∨ u + PGSIZE ≤ t := by
  have h₁ := ht.aligned
  have h₂ := hu.aligned
  unfold PGSIZE at *
  omega

/-! ### `switch_threads` -/

/-- `switch_threads` up to the switch of the stack, and from there on. -/
def switchSave : List Instr :=
  [.pushl .ebx, .pushl .ebp, .pushl .esi, .pushl .edi,
    .movSym threadStackOfs .edx,
    .movFrom SWITCH_CUR .esp .eax, .movToIndexed .esp .eax .edx]

def switchRestore : List Instr :=
  [.movFrom SWITCH_NEXT .esp .ecx, .movFromIndexed .ecx .edx .esp,
    .popl .edi, .popl .esi, .popl .ebp, .popl .ebx, .ret]

theorem switchThreads_eq : switchThreads = switchSave ++ switchRestore := rfl

/-- The arguments of a call of `switch_threads`, on the stack of `t`. -/
structure Called (m : Processor) (t next : Nat) : Prop where
  page : IsPage t
  room : t + sizeofThread + 16 ≤ m.sp
  high : m.sp + 12 ≤ t + PGSIZE
  cur : (m.mem.word (m.sp + 4)).toNat = t
  next : (m.mem.word (m.sp + 8)).toNat = next

theorem toNat_add {a b : UInt32} (h : a.toNat + b.toNat < 2 ^ 32) :
    (a + b).toNat = a.toNat + b.toNat := by
  rw [UInt32.toNat_add, Nat.mod_eq_of_lt h]

/-- **Saving.** The first half leaves the context of the caller on its page: four registers
are pushed above the return address, and the stack pointer is stored in the structure at the
bottom of the page, which the stack has not grown into. -/
theorem Called.save {next : Nat} (h : Called m t next) :
    (m.run switchSave).sp + 16 = m.sp ∧
      (m.run switchSave).reg .edx = threadStackOfs ∧
      ((m.run switchSave).reg .eax).toNat = t ∧
      Saved (m.run switchSave).mem t (callerContext m) ∧
      ∀ x, ¬ (t + 24 ≤ x ∧ x < t + 28) → ¬ (m.sp - 16 ≤ x ∧ x < m.sp) →
        (m.run switchSave).mem x = m.mem x := by
  have hlt := h.page.lt
  have hroom := h.room
  have hhigh := h.high
  have hpush : Processor.Pushed m (m.run ([.ebx, .ebp, .esi, .edi].map .pushl))
      (calleeSaved.map m.reg) :=
    Processor.run_pushl (by decide) (by show 16 ≤ _; omega)
  generalize hm₁ : m.run ([.ebx, .ebp, .esi, .edi].map .pushl) = m₁ at hpush
  have hsp : m₁.sp + 16 = m.sp := hpush.sp
  have hcur : (m₁.mem.word (m₁.sp + 20)).toNat = t := by
    rw [← h.cur, show m₁.sp + 20 = m.sp + 4 by omega]
    rw [Mem.word_congr fun x hl _ => hpush.outside x (Or.inr (by omega))]
  have hcurAddr : (m₁.reg .esp + SWITCH_CUR).toNat = m₁.sp + 20 :=
    toNat_add (by show m₁.sp + 20 < _; omega)
  generalize hv : m₁.mem.word (m₁.sp + 20) = v at hcur
  have haddr : (v + threadStackOfs).toNat = t + 24 := by
    rw [toNat_add (by rw [hcur]; show t + 24 < _; unfold PGSIZE at hlt; omega), hcur]
    rfl
  have hrun : m.run switchSave =
      { (m₁.setReg .edx threadStackOfs).setReg .eax v with
        mem := m₁.mem.setWord (t + 24) (m₁.reg .esp) } := by
    have hcode : switchSave = [.ebx, .ebp, .esi, .edi].map .pushl ++
        [.movSym threadStackOfs .edx, .movFrom SWITCH_CUR .esp .eax,
          .movToIndexed .esp .eax .edx] := rfl
    rw [hcode, Processor.run_append, hm₁]
    simp only [Processor.run_cons, Processor.run_nil, Processor.exec, Processor.setReg_reg,
      Processor.setReg_mem, reduceCtorEq, if_true, if_false, hcurAddr, hv, haddr]
  have hstruct : t + 28 ≤ m₁.sp := by
    unfold sizeofThread at hroom
    omega
  rw [hrun]
  refine ⟨hsp, ?_, ?_, ⟨?_, ?_, ?_, ?_, fun x hl hu => ?_⟩, fun x h₁ h₂ => ?_⟩
  · simp
  · simpa using hcur
  · show ((m₁.mem.setWord (t + 24) (m₁.reg .esp)).word (t + 24)).toNat + 20 = m.sp + 4
    rw [Mem.word_setWord]
    show m₁.sp + 20 = _
    omega
  · show t + sizeofThread + 20 ≤ m.sp + 4
    omega
  · show m.sp + 4 + 8 ≤ _
    omega
  · show (m₁.mem.setWord _ _).Words (m.sp + 4 - 20) (calleeSaved.map m.reg ++ [m.top])
    rw [show m.sp + 4 - 20 = m₁.sp by omega]
    have hwords : m₁.mem.Words m₁.sp (calleeSaved.map m.reg ++ [m.top]) := by
      refine Mem.words_append.mpr ⟨hpush.words, ?_, trivial⟩
      show m₁.mem.word (m₁.sp + 16) = m.mem.word m.sp
      rw [hsp]
      exact Mem.word_congr fun x hl _ => hpush.outside x (Or.inr hl)
    exact hwords.congr fun x hl _ => Mem.setWord_of_outside (by omega)
  · show m₁.mem.setWord _ _ x = m.mem x
    change m.sp + 4 ≤ x at hl
    rw [Mem.setWord_of_outside (by omega), hpush.outside x (by omega)]
  · show m₁.mem.setWord _ _ x = m.mem x
    rw [Mem.setWord_of_outside (by omega), hpush.outside x (by omega)]

/-- **Restoring.** The second half resumes the context on the page of `next`. The stack
pointer is loaded from the structure, the four registers are popped and `ret` takes the return
address, which are the words that the first half left there. -/
theorem Saved.restore {next : Nat} (hpage : IsPage next) (h : Saved m.mem next c)
    (hedx : m.reg .edx = threadStackOfs) (hroom : m.sp + 24 < 2 ^ 32)
    (hnext : (m.mem.word (m.sp + 24)).toNat = next) :
    Resumes (m.run switchRestore) next c ∧ (m.run switchRestore).reg .eax = m.reg .eax ∧
      (m.run switchRestore).mem = m.mem := by
  have hptr := h.pointer
  have hlow := h.low
  have hhigh := h.high
  have hlt := hpage.lt
  have haddr : (m.reg .esp + SWITCH_NEXT).toNat = m.sp + 24 := toNat_add hroom
  generalize hv : m.mem.word (m.sp + 24) = v at hnext
  have hfield : (v + threadStackOfs).toNat = next + 24 := by
    rw [toNat_add (by rw [hnext]; show next + 24 < _; unfold PGSIZE at hlt; omega), hnext]
    rfl
  -- the machine on the other stack
  obtain ⟨m₁, hm₁⟩ : ∃ m₁, (m.setReg .ecx v).setReg .esp (m.mem.word (next + 24)) = m₁ := ⟨_, rfl⟩
  have hsp : m₁.sp + 20 = c.sp := by
    rw [← hm₁, ← hptr]
    show (((m.setReg .ecx v).setReg .esp (m.mem.word (next + 24))).reg .esp).toNat + 20 = _
    rw [Processor.setReg_reg, if_pos rfl]
  have hmem : m₁.mem = m.mem := by rw [← hm₁]; rfl
  have heax : m₁.reg .eax = m.reg .eax := by rw [← hm₁]; simp
  have hrun : m.run switchRestore = (m₁.run (calleeSaved.map .popl)).exec .ret := by
    have hcode : switchRestore = [.movFrom SWITCH_NEXT .esp .ecx, .movFromIndexed .ecx .edx .esp] ++
        (calleeSaved.map .popl ++ [.ret]) := rfl
    rw [hcode, Processor.run_append, Processor.run_append]
    simp only [Processor.exec, Processor.setReg_reg, Processor.setReg_mem, reduceCtorEq, if_true,
      if_false, haddr, hv, hedx, hfield, hm₁, Processor.run_cons, Processor.run_nil]
  have hframe : m₁.mem.Words m₁.sp (calleeSaved.map c.reg ++ [c.eip]) := by
    rw [hmem, show m₁.sp = c.sp - 20 by omega]
    exact h.frame
  obtain ⟨hregs, hret⟩ := Mem.words_append.mp hframe
  obtain ⟨hs, hm, -, hin, hout⟩ := Processor.run_popl (m := m₁) (f := c.reg)
    (by decide) (by decide) (by show m₁.sp + 16 < _; omega) hregs
  change _ = m₁.sp + 16 at hs
  generalize m₁.run (calleeSaved.map .popl) = m₂ at hrun hs hm hin hout
  have htop : m₂.top = c.eip := by
    show m₂.mem.word m₂.sp = _
    rw [hm, hs]
    exact hret.1
  have hsp₂ : (m₂.drop 4).sp = c.sp := by
    rw [Processor.drop_sp (by show m₂.sp + 4 < _; omega)]
    show m₂.sp + 4 = _
    omega
  have hmem₂ : (m₂.exec .ret).mem = m.mem := hm.trans hmem
  have hsp' : (m₂.exec .ret).sp = c.sp := hsp₂
  rw [hrun]
  refine ⟨⟨hsp₂, htop, fun r hr => ?_, fun x hl hu => ?_, ?_⟩, ?_, hmem₂⟩
  · have hne : r ≠ .esp := by
      rintro rfl
      exact absurd hr (by decide)
    exact (Processor.drop_reg hne).trans (hin r hr)
  · rw [hmem₂]
    exact h.stack x hl hu
  · refine runningThread_eq hpage ?_ ?_ <;> rw [hsp']
    · omega
    · omega
  · exact (Processor.drop_reg (n := 4) (by decide)).trans
      ((hout .eax (by decide) (by decide)).trans heax)

/-- **`switch_threads`.** The caller is saved, `next` resumes, and finds out who ran
before it. -/
theorem Called.switchThreads {next : Nat} (h : Called m t next) (hpage : IsPage next)
    (hne : t ≠ next) (hsaved : Saved m.mem next c) :
    Resumes (m.run switchThreads) next c ∧ ((m.run switchThreads).reg .eax).toNat = t ∧
      Saved (m.run switchThreads).mem t (callerContext m) ∧
      ∀ x, ¬ (t ≤ x ∧ x < t + PGSIZE) → (m.run switchThreads).mem x = m.mem x := by
  have hlt := h.page.lt
  have hroom := h.room
  have hhigh := h.high
  obtain ⟨hsp, hedx, heax, hself, hout⟩ := h.save
  have hpages := h.page.disjoint hpage hne
  have hother : ∀ x, ¬ (t ≤ x ∧ x < t + PGSIZE) → (m.run switchSave).mem x = m.mem x := by
    intro x hx
    refine hout x ?_ ?_ <;> unfold sizeofThread PGSIZE at * <;> omega
  have hnext : ((m.run switchSave).mem.word ((m.run switchSave).sp + 24)).toNat = next := by
    rw [← h.next, show (m.run switchSave).sp + 24 = m.sp + 8 by omega]
    refine congrArg _ (Mem.word_congr fun x hl hu => hout x ?_ ?_)
    all_goals
      unfold sizeofThread at hroom
      omega
  have hkeep : Saved (m.run switchSave).mem next c := hsaved.congr fun x hx => by
    have := protects_page hsaved hx
    exact hother x (by omega)
  obtain ⟨hres, heax', hmem⟩ := hkeep.restore hpage hedx (by omega) hnext
  rw [switchThreads_eq, Processor.run_append]
  refine ⟨hres, by rw [heax', heax], by rw [hmem]; exact hself, fun x hx => ?_⟩
  rw [hmem]
  exact hother x hx

/-! ### A new thread -/

/-- What `init_thread` leaves for `alloc_frame`. -/
theorem initThread_spec (ht : IsPage t) {name : List UInt8} {priority : Nat}
    (hp : priority ≤ 63) :
    ∃ m', initThread mem t name priority = some m' ∧
      m'.word (t + 24) = UInt32.ofNat (t + PGSIZE) ∧ m'.word (t + 52) = THREAD_MAGIC ∧
      ∀ x, x < t ∨ t + sizeofThread ≤ x → m' x = mem x := by
  have hpos := ht.pos
  have hlen : (strlcpy name 16).length ≤ 16 := by
    unfold strlcpy
    rw [List.length_append, List.length_take, List.length_singleton]
    omega
  refine ⟨_, if_neg (by omega), ?_, Mem.word_setWord, fun x hx => ?_⟩
  · rw [Mem.word_setWord_of_disjoint (by omega), Mem.word_setWord_of_disjoint (by omega),
      Mem.word_setWord_of_disjoint (by omega), Mem.word_setWord]
  · unfold sizeofThread at hx
    rw [Mem.setWord_of_outside (by omega), Mem.setWord_of_outside (by omega),
      Mem.setWord_of_outside (by omega), Mem.setWord_of_outside (by omega),
      Mem.blit_of_outside (by omega), Mem.setWord_of_outside (by omega)]
    exact Mem.blit_of_outside (by unfold sizeofThread; omega)

theorem allocFrame_eq (rest : Nat) {size : Nat} (ht : t ≠ 0) (hm : mem.word (t + 52) = THREAD_MAGIC)
    (hstack : mem.word (t + 24) = UInt32.ofNat (rest + size)) (hlt : rest + size < 2 ^ 32)
    (hsize : size % 4 = 0) :
    allocFrame mem t size = some (mem.setWord (t + 24) (UInt32.ofNat rest), rest) := by
  have hthread : isThread mem t = true := by simp [isThread, ht, hm]
  have hsub : UInt32.ofNat (rest + size) - UInt32.ofNat size = UInt32.ofNat rest := by
    rw [UInt32.ofNat_add, UInt32.add_sub_cancel]
  unfold allocFrame
  rw [if_pos ⟨hthread, hsize⟩, hstack, hsub]
  simp only [UInt32.toNat_ofNat', Option.some.injEq, Prod.mk.injEq, true_and]
  omega

/-- The context in which a new thread starts. -/
def newContext (sym : Symbols) (mem : Mem) (t : Nat) : Context :=
  ⟨fun _ => 0, sym.switchEntry, t + PGSIZE - 24, mem⟩

/-- The words above it: two arguments of `switch_threads` that are never set, the frame of
`switch_entry`, and the frame of `kernel_thread`. -/
def newStack (sym : Symbols) (function aux : UInt32) : List UInt32 :=
  [0, 0, sym.kernelThread, 0, function, aux]

theorem word_fill {n : Nat} {a : Nat} (h : t ≤ a ∧ a + 4 ≤ t + n) : (mem.fill t n 0).word a = 0 := by
  have hbyte : ∀ i < 4, mem.fill t n 0 (a + i) = Mem.byteOf 0 i := by
    intro i hi
    have : mem.fill t n 0 (t + (a + i - t)) = 0 := Mem.blit_of_inside (by omega)
    rw [show t + (a + i - t) = a + i by omega] at this
    rw [this]
    simp [Mem.byteOf]
  unfold Mem.word
  rw [Mem.load_of_bytes (v := 0) hbyte (by decide)]
  rfl

/-- What the new page holds in the end, over what `init_thread` leaves. -/
def prepared (sym : Symbols) (m : Mem) (t : Nat) (tid function aux : UInt32) : Mem :=
  let m := (m.setWord t tid).setWord (t + 24) (UInt32.ofNat (t + 4084))
  let m := ((m.setWord (t + 4084) 0).setWord (t + 4088) function).setWord (t + 4092) aux
  let m := m.setWord (t + 24) (UInt32.ofNat (t + 4080))
  let m := m.setWord (t + 4080) sym.kernelThread
  let m := m.setWord (t + 24) (UInt32.ofNat (t + 4052))
  (m.setWord (t + 4068) sym.switchEntry).setWord (t + 4060) 0

/-- `thread_create` writes the three frames below the top of the page, from the top down, and
stores the pointer to the lowest one; each assertion on the way is true of the page that
`init_thread` leaves. -/
theorem threadCreate_eq (ht : IsPage t) {name : List UInt8} {priority : Nat} {m₀ : Mem}
    {tid function aux : UInt32} (hf : function ≠ 0)
    (hinit : initThread (mem.fill t PGSIZE 0) t name priority = some m₀)
    (hstack : m₀.word (t + 24) = UInt32.ofNat (t + PGSIZE))
    (hmagic : m₀.word (t + 52) = THREAD_MAGIC) :
    threadCreate sym mem t name priority tid function aux =
      some (prepared sym m₀ t tid function aux) := by
  have hpos := ht.pos
  have hlt := ht.lt
  unfold PGSIZE at hlt hstack
  have hguard : (guard (function ≠ 0) : Option Unit) = some () := by simp [guard, hf]
  unfold threadCreate prepared
  rw [hguard, hinit]
  simp only [Option.bind_eq_bind, Option.bind_some]
  rw [allocFrame_eq (t + 4084) (by omega)
    (by rw [Mem.word_setWord_of_disjoint (by omega), hmagic])
    (by rw [Mem.word_setWord_of_disjoint (by omega), hstack]) (by omega) (by decide)]
  simp only [Option.bind_some]
  rw [allocFrame_eq (t + 4080) (by omega)
    (by simp (disch := omega) only [Mem.word_setWord_of_disjoint, hmagic])
    (by simp (disch := omega) only [Mem.word_setWord_of_disjoint, Mem.word_setWord, Nat.add_assoc,
      Nat.reduceAdd]) (by omega) (by decide)]
  simp only [Option.bind_some]
  rw [allocFrame_eq (t + 4052) (by omega)
    (by simp (disch := omega) only [Mem.word_setWord_of_disjoint, hmagic])
    (by simp (disch := omega) only [Mem.word_setWord_of_disjoint, Mem.word_setWord, Nat.add_assoc,
      Nat.reduceAdd]) (by omega) (by decide)]
  simp only [Option.bind_some, Nat.add_assoc, Nat.reduceAdd]

/-- **`thread_create`** prepares a context for `switch_threads`, on the new page. -/
theorem threadCreate_saved (ht : IsPage t) {name : List UInt8} {priority : Nat}
    (hp : priority ≤ 63) {tid function aux : UInt32} (hf : function ≠ 0) :
    ∃ mem', threadCreate sym mem t name priority tid function aux = some mem' ∧
      Saved mem' t (newContext sym mem' t) ∧
      mem'.Words (t + PGSIZE - 24) (newStack sym function aux) ∧
      ∀ x, x < t ∨ t + PGSIZE ≤ x → mem' x = mem x := by
  have hlt := ht.lt
  obtain ⟨m₀, hinit, hstack, hmagic, hout⟩ :=
    initThread_spec ht hp
  refine ⟨_, threadCreate_eq ht hf hinit hstack hmagic, ?_⟩
  have hzero : ∀ a, t + 56 ≤ a → a + 4 ≤ t + 4096 → m₀.word a = 0 := by
    intro a hl hu
    rw [Mem.word_congr fun x hx _ => hout x (Or.inr (Nat.le_trans hl hx))]
    exact word_fill ⟨by omega, hu⟩
  have hfit : (UInt32.ofNat (t + 4052)).toNat = t + 4052 := by
    unfold PGSIZE at hlt
    simp only [UInt32.toNat_ofNat']
    omega
  unfold prepared
  refine ⟨⟨?_, ?_, ?_, ?_, fun _ _ _ => rfl⟩, ?_, fun x hx => ?_⟩
  · simp (disch := omega) only [Mem.word_setWord_of_disjoint, Mem.word_setWord, hfit]
    rfl
  · show t + 56 + 20 ≤ t + 4096 - 24
    omega
  · show t + 4096 - 24 + 8 ≤ t + 4096
    omega
  · rw [show (newContext sym _ t).sp - 20 = t + 4052 from rfl]
    simp (disch := omega) [calleeSaved, newContext, Mem.word_setWord_of_disjoint, hzero]
  · rw [show t + PGSIZE - 24 = t + 4072 from rfl]
    simp (disch := omega) [newStack, Mem.word_setWord_of_disjoint, hzero]
  · unfold PGSIZE at hx
    simp (disch := omega) only [Mem.setWord_of_outside]
    rw [hout x (by unfold sizeofThread; omega)]
    exact Mem.blit_of_outside (by unfold PGSIZE; omega)

theorem threadCreate_some {name : List UInt8} {priority : Nat} {tid function aux : UInt32}
    (h : threadCreate sym mem t name priority tid function aux = some mem') :
    priority ≤ 63 ∧ function ≠ 0 := by
  unfold threadCreate at h
  have hf : function ≠ 0 := by
    intro hf
    simp [hf, guard] at h
  have hguard : (guard (function ≠ 0) : Option Unit) = some () := by simp [guard, hf]
  refine ⟨?_, hf⟩
  by_contra hp
  have hinit : initThread (mem.fill t PGSIZE 0) t name priority = none :=
    if_pos (Or.inr (by omega))
  rw [hguard, hinit] at h
  simp at h

/-- What a C function with one argument keeps for its caller, on the stack of `t`. -/
structure Returned (m m' : Processor) (t : Nat) : Prop where
  eip : m'.eip = m.top
  sp : m'.sp = m.sp + 4
  reg : ∀ r ∈ calleeSaved, m'.reg r = m.reg r
  stack : ∀ x, m.sp + 8 ≤ x → x < t + PGSIZE → m'.mem x = m.mem x

/-- On entry to the function at `f`, with `args` as its arguments. -/
structure Entered (m : Processor) (f ret : UInt32) (args : List UInt32) : Prop where
  eip : m.eip = f
  frame : m.mem.Words m.sp (ret :: args)

/-- **`switch_entry`** calls `thread_switch_tail` with the thread that ran before, and then
enters `kernel_thread`. -/
theorem Resumes.switchEntry (ht : IsPage t) (h : Resumes m t (newContext sym mem t))
    {function aux : UInt32} (hw : mem.Words (t + PGSIZE - 24) (newStack sym function aux)) :
    m.eip = sym.switchEntry ∧
      Entered (m.run (Threads.switchEntry sym)) sym.threadSwitchTail sym.afterTail [m.reg .eax] ∧
      ∀ m', Returned (m.run (Threads.switchEntry sym)) m' t →
        m'.eip = sym.afterTail ∧
          Entered (m'.run switchEntryEnd) sym.kernelThread 0 [function, aux] := by
  have hlt := ht.lt
  unfold PGSIZE at hlt
  have hsp : m.sp = t + 4072 := h.sp
  have hstack : ∀ x, t + 4072 ≤ x → x < t + 4096 → m.mem x = mem x := h.stack
  obtain ⟨-, -, hkernel, hnull, hfun, haux, -⟩ :
    mem.Words (t + 4072) (newStack sym function aux) := hw
  simp only [Nat.add_assoc, Nat.reduceAdd] at hkernel hnull hfun haux
  -- `addl $8, %esp`, `pushl %eax`
  have hsp₁ : (m.drop 8).sp = t + 4080 := by
    rw [Processor.drop_sp (by show m.sp + 8 < _; omega), hsp]
    rfl
  have hpush : Processor.Pushed (m.drop 8) ((m.drop 8).push (m.reg .eax)) [m.reg .eax] :=
    Processor.pushed_push (by omega)
  generalize hm₂ : (m.drop 8).push (m.reg .eax) = m₂ at hpush
  have hsp₂ : m₂.sp + 4 = t + 4080 := hpush.sp.trans hsp₁
  have hcall : Processor.Pushed m₂ (m₂.push sym.afterTail) [sym.afterTail] :=
    Processor.pushed_push (by omega)
  have hboth := hpush.trans hcall
  have hrun : m.run (Threads.switchEntry sym) =
      { m₂.push sym.afterTail with eip := sym.threadSwitchTail } := by
    rw [← hm₂]
    show (((m.exec (.addl 8 .esp)).exec (.pushl .eax)).exec (.call _ _)) = _
    have heax : (m.exec (.addl 8 .esp)).reg .eax = m.reg .eax := Processor.drop_reg (by decide)
    show { ((m.drop 8).push ((m.exec (.addl 8 .esp)).reg .eax)).push sym.afterTail with
      eip := sym.threadSwitchTail } = _
    rw [heax]
  rw [hrun]
  have hsp₃ : (m₂.push sym.afterTail).sp = t + 4072 := by
    have : (m₂.push sym.afterTail).sp + 4 = m₂.sp := hcall.sp
    omega
  refine ⟨h.eip, ⟨rfl, hboth.words⟩, fun m' hm' => ?_⟩
  have hret : m'.eip = sym.afterTail := hm'.eip.trans hboth.words.1
  have hsp' : m'.sp = t + 4076 := by
    rw [hm'.sp]
    show (m₂.push sym.afterTail).sp + 4 = _
    omega
  have hsp₄ : (m'.drop 4).sp = t + 4080 := by
    rw [Processor.drop_sp (by show m'.sp + 4 < _; omega), hsp']
    rfl
  have hkeep : ∀ x, t + 4080 ≤ x → x < t + 4096 → m'.mem x = mem x := by
    intro x hl hu
    rw [hm'.stack x (by show (m₂.push sym.afterTail).sp + 8 ≤ x; omega) hu]
    show (m₂.push sym.afterTail).mem x = _
    rw [hboth.outside x (Or.inr (by omega))]
    exact hstack x (by omega) hu
  have hword : ∀ a, t + 4080 ≤ a → a + 4 ≤ t + 4096 → m'.mem.word a = mem.word a :=
    fun a hl hu => Mem.word_congr fun x hx _ => hkeep x (by omega) (by omega)
  refine ⟨hret, ?_, ?_⟩
  · show (m'.drop 4).mem.word (m'.drop 4).sp = _
    rw [hsp₄, Processor.drop_mem, hword _ (by omega) (by omega)]
    exact hkernel
  · have hsp₅ : (m'.run switchEntryEnd).sp = t + 4084 := by
      show ((m'.drop 4).drop 4).sp = _
      rw [Processor.drop_sp (by rw [hsp₄]; show t + 4080 + 4 < _; omega), hsp₄]
      rfl
    rw [hsp₅]
    refine ⟨?_, ?_, ?_, trivial⟩
    · exact (hword _ (by omega) (by omega)).trans hnull
    · exact (hword _ (by omega) (by omega)).trans hfun
    · exact (hword _ (by omega) (by omega)).trans haux

/-! ### Runs -/

/-- The machine and the pages that hold a thread. -/
structure Kernel where
  machine : Processor
  threads : List Nat

namespace Kernel

/-- `code` is what the running thread does by itself, `switch` a call of `switch_threads`
that returns to `ret`, and `free` the `palloc_free_page` of a thread. -/
inductive Act
  | code (m : Processor)
  | create (t : Nat) (name : List UInt8) (priority : Nat) (tid function aux : UInt32)
  | switch (next : Nat) (ret : UInt32)
  | free (t : Nat)

def running (k : Kernel) : Nat := runningThread k.machine

/-- The machine on entry to `switch_threads (cur, next)`. -/
def callSwitch (sym : Symbols) (m : Processor) (next : Nat) (ret : UInt32) : Processor :=
  ((m.push (UInt32.ofNat next)).push (UInt32.ofNat (runningThread m))).exec
    (.call sym.switchThreads ret)

/-- Code stays on its stack and leaves what other threads have saved alone. -/
inductive Step (sym : Symbols) : Kernel → Act → Kernel → Prop
  | code {k : Kernel} {m : Processor} (hstay : runningThread m = k.running)
      (hkeep : ∀ u ∈ k.threads, u ≠ k.running → ∀ x, Protects k.machine.mem u x →
        m.mem x = k.machine.mem x) :
      Step sym k (.code m) { k with machine := m }
  | create {k : Kernel} {t : Nat} {name : List UInt8} {priority : Nat}
      {tid function aux : UInt32} {mem : Mem} (hfresh : t ∉ k.threads) (hpage : IsPage t)
      (hcreate : threadCreate sym k.machine.mem t name priority tid function aux = some mem) :
      Step sym k (.create t name priority tid function aux)
        { machine := { k.machine with mem }, threads := t :: k.threads }
  | switch {k : Kernel} {next : Nat} {ret : UInt32} (hnext : next ∈ k.threads)
      (hne : next ≠ k.running) (hroom : k.running + sizeofThread + 28 ≤ k.machine.sp) :
      Step sym k (.switch next ret)
        { k with machine := (callSwitch sym k.machine next ret).run switchThreads }
  | free {k : Kernel} {t : Nat} (hne : t ≠ k.running) :
      Step sym k (.free t) { k with threads := k.threads.filter (· ≠ t) }

/-- Every thread but the running one is saved. -/
structure Inv (k : Kernel) : Prop where
  page : ∀ t ∈ k.threads, IsPage t
  running : k.running ∈ k.threads
  saved : ∀ t ∈ k.threads, t ≠ k.running → ∃ c, Saved k.machine.mem t c

/-- The initial thread runs, on its own page. -/
structure Booted (k : Kernel) : Prop where
  threads : k.threads = [k.running]
  page : IsPage k.running

theorem Booted.inv {k : Kernel} (h : Booted k) : Inv k := by
  have honly : ∀ t ∈ k.threads, t = k.running := fun t ht => by
    rw [h.threads] at ht
    exact List.mem_singleton.mp ht
  refine ⟨fun t ht => honly t ht ▸ h.page, ?_, fun t ht hne => absurd (honly t ht) hne⟩
  rw [h.threads]
  exact List.mem_singleton_self _

/-- What the caller of `switch_threads` saves. -/
def callContext (sym : Symbols) (m : Processor) (next : Nat) (ret : UInt32) : Context :=
  callerContext (callSwitch sym m next ret)

variable {k k' : Kernel} {next : Nat} {ret : UInt32} {a : Act}

theorem callSwitch_pushed (next : Nat) (ret : UInt32) (hroom : 12 ≤ m.sp) :
    Processor.Pushed m (((m.push (UInt32.ofNat next)).push (UInt32.ofNat (runningThread m))).push ret)
      [ret, UInt32.ofNat (runningThread m), UInt32.ofNat next] := by
  have h₁ : Processor.Pushed m (m.push (UInt32.ofNat next)) [_] := Processor.pushed_push (by omega)
  have hs₁ : (m.push (UInt32.ofNat next)).sp + 4 = m.sp := h₁.sp
  have h₂ := h₁.trans (Processor.pushed_push (v := UInt32.ofNat (runningThread m)) (by omega))
  have hs₂ : ((m.push (UInt32.ofNat next)).push (UInt32.ofNat (runningThread m))).sp + 8 = m.sp :=
    h₂.sp
  exact h₂.trans (Processor.pushed_push (by omega))

/-- The call leaves room and its arguments for `switch_threads`. -/
theorem callSwitch_called (hpage : IsPage (runningThread m)) (hnext : IsPage next)
    (hroom : runningThread m + sizeofThread + 28 ≤ m.sp) :
    Called (callSwitch sym m next ret) (runningThread m) next := by
  have hlt := hpage.lt
  have hlt' := hnext.lt
  have hle := running_le (m := m)
  unfold PGSIZE at hlt hlt' hle
  have hpush := callSwitch_pushed (m := m) next ret (by omega)
  obtain ⟨-, hcur, hnx, -⟩ := hpush.words
  have hsp : (callSwitch sym m next ret).sp + 12 = m.sp := hpush.sp
  refine ⟨hpage, by omega, by unfold PGSIZE; omega, ?_, ?_⟩
  · refine (congrArg UInt32.toNat hcur).trans ?_
    simp only [UInt32.toNat_ofNat']
    omega
  · refine (congrArg UInt32.toNat hnx).trans ?_
    simp only [UInt32.toNat_ofNat']
    omega

theorem callContext_spec (hroom : 12 ≤ m.sp) :
    (callContext sym m next ret).sp + 8 = m.sp ∧ (callContext sym m next ret).eip = ret ∧
      (∀ r ∈ calleeSaved, (callContext sym m next ret).reg r = m.reg r) ∧
      ∀ x, m.sp ≤ x → (callContext sym m next ret).stack x = m.mem x := by
  have hpush := callSwitch_pushed (m := m) next ret hroom
  have hsp : (callSwitch sym m next ret).sp + 12 = m.sp := hpush.sp
  refine ⟨?_, hpush.words.1, fun r hr => hpush.reg r ?_, fun x hx => hpush.outside x (Or.inr hx)⟩
  · show (callSwitch sym m next ret).sp + 4 + 8 = _
    omega
  · rintro rfl
    exact absurd hr (by decide)

/-- The thread `t` does not run, and has saved the context `c`. -/
structure Waits (k : Kernel) (t : Nat) (c : Context) : Prop where
  mem : t ∈ k.threads
  ne : t ≠ k.running
  saved : Saved k.machine.mem t c

/-- **A call of `switch_threads`**: who called it waits, and `next` goes on. -/
theorem Inv.switch (h : Inv k) (hstep : Step sym k (.switch next ret) k')
    (hsaved : Saved k.machine.mem next c) :
    Resumes k'.machine next c ∧ (k'.machine.reg .eax).toNat = k.running ∧
      Waits k' k.running (callContext sym k.machine next ret) ∧
      ∀ x, ¬ (k.running ≤ x ∧ x < k.running + PGSIZE) →
        k'.machine.mem x = k.machine.mem x := by
  cases hstep with
  | switch hnext hne hroom =>
      have hcalled : Called (callSwitch sym k.machine next ret) k.running next :=
        callSwitch_called (h.page _ h.running) (h.page _ hnext) hroom
      have hroom' : k.running + 56 + 28 ≤ k.machine.sp := hroom
      have hle : k.machine.sp < k.running + PGSIZE := running_le.2
      have hpush := callSwitch_pushed (m := k.machine) next ret (by omega)
      have hsp : (callSwitch sym k.machine next ret).sp + 12 = k.machine.sp := hpush.sp
      have hmem : ∀ x, ¬ (k.running ≤ x ∧ x < k.running + PGSIZE) →
          (callSwitch sym k.machine next ret).mem x = k.machine.mem x :=
        fun x hx => hpush.outside x (by change x < (callSwitch sym k.machine next ret).sp ∨ _; omega)
      have hdisjoint := (h.page _ hnext).disjoint (h.page _ h.running) hne
      have hkeep : Saved (callSwitch sym k.machine next ret).mem next c := hsaved.congr
        fun x hx => hmem x (by have := protects_page hsaved hx; omega)
      obtain ⟨hres, heax, hself, hother⟩ :=
        hcalled.switchThreads (h.page _ hnext) (Ne.symm hne) hkeep
      refine ⟨hres, heax, ⟨h.running, ?_, hself⟩, fun x hx => ?_⟩
      · intro heq
        exact hne (hres.running.symm.trans heq.symm)
      · exact (hother x hx).trans (hmem x hx)

/-- **Other steps** leave a context that waits alone. -/
theorem Waits.step (h : Inv k) (hw : Waits k t c) (hstep : Step sym k a k')
    (hfree : a ≠ .free t) (hswitch : ∀ ret, a ≠ .switch t ret) : Waits k' t c := by
  cases hstep with
  | code hstay hkeep =>
      refine ⟨hw.mem, fun heq => hw.ne (heq.trans hstay), hw.saved.congr ?_⟩
      exact hkeep t hw.mem hw.ne
  | @create u name priority tid function aux mem hfresh hpage hcreate =>
      obtain ⟨hp, hf⟩ := threadCreate_some hcreate
      obtain ⟨mem', hmem', -, -, hout⟩ :=
        threadCreate_saved hpage hp hf
      obtain rfl := Option.some.inj (hcreate.symm.trans hmem')
      have hne : t ≠ u := fun heq => hfresh (heq ▸ hw.mem)
      have hdisjoint := (h.page t hw.mem).disjoint hpage hne
      refine ⟨List.mem_cons_of_mem _ hw.mem, hw.ne, hw.saved.congr fun x hx => hout x ?_⟩
      have := protects_page hw.saved hx
      omega
  | @switch next ret hnext hne hroom =>
      have hs : Step sym k (.switch next ret)
          { k with machine := (callSwitch sym k.machine next ret).run switchThreads } :=
        .switch hnext hne hroom
      obtain ⟨c', hc'⟩ := h.saved next hnext hne
      obtain ⟨hres, -, -, hmem⟩ := h.switch hs hc'
      have hother : t ≠ next := fun heq => hswitch ret (by rw [heq])
      have hdisjoint := (h.page t hw.mem).disjoint (h.page _ h.running) hw.ne
      refine ⟨hw.mem, fun heq => hother (heq.trans hres.running), hw.saved.congr fun x hx => ?_⟩
      have := protects_page hw.saved hx
      exact hmem x (by omega)
  | @free u hne =>
      have hother : t ≠ u := fun heq => hfree (by rw [heq])
      exact ⟨List.mem_filter.mpr ⟨hw.mem, decide_eq_true hother⟩, hw.ne, hw.saved⟩

theorem Inv.create (h : Inv k) {name : List UInt8} {priority : Nat} {tid function aux : UInt32}
    (hstep : Step sym k (.create t name priority tid function aux) k') :
    Waits k' t (newContext sym k'.machine.mem t) ∧
      k'.machine.mem.Words (t + PGSIZE - 24) (newStack sym function aux) := by
  cases hstep with
  | create hfresh hpage hcreate =>
      obtain ⟨hp, hf⟩ := threadCreate_some hcreate
      obtain ⟨mem', hmem', hsaved, hwords, -⟩ :=
        threadCreate_saved hpage hp hf
      obtain rfl := Option.some.inj (hcreate.symm.trans hmem')
      exact ⟨⟨List.mem_cons_self, fun heq => hfresh (heq ▸ h.running), hsaved⟩, hwords⟩

/-- **One step.** A thread that is created waits in the context that was built for it; a
switch saves the context of the running thread and resumes that of another. What is on the
other pages is not touched. -/
theorem Inv.step (h : Inv k) (hstep : Step sym k a k') : Inv k' := by
  have hwaits : ∀ t ∈ k.threads, t ≠ k.running → ∃ c, Waits k t c := fun t ht hne => by
    obtain ⟨c, hc⟩ := h.saved t ht hne
    exact ⟨c, ht, hne, hc⟩
  cases a with
  | code m =>
      have hkeep : ∀ t ∈ k.threads, t ≠ k.running → ∃ c, Waits k' t c := fun t ht hne => by
        obtain ⟨c, hc⟩ := hwaits t ht hne
        exact ⟨c, hc.step h hstep (by simp) (by simp)⟩
      cases hstep with
      | code hstay _ =>
          refine ⟨h.page, ?_, fun t ht hne => ?_⟩
          · show runningThread m ∈ k.threads
            rw [hstay]
            exact h.running
          obtain ⟨c, hc⟩ := hkeep t ht fun heq => hne (heq.trans hstay.symm)
          exact ⟨c, hc.saved⟩
  | create u name priority tid function aux =>
      have hnew := (h.create hstep).1
      have hkeep : ∀ t ∈ k.threads, t ≠ k.running → ∃ c, Waits k' t c := fun t ht hne => by
        obtain ⟨c, hc⟩ := hwaits t ht hne
        exact ⟨c, hc.step h hstep (by simp) (fun _ => by simp)⟩
      cases hstep with
      | create hfresh hpage _ =>
          refine ⟨fun t ht => ?_, List.mem_cons_of_mem _ h.running, fun t ht hne => ?_⟩
          · rcases List.mem_cons.mp ht with rfl | ht
            · exact hpage
            · exact h.page t ht
          · rcases List.mem_cons.mp ht with rfl | ht
            · exact ⟨_, hnew.saved⟩
            · obtain ⟨c, hc⟩ := hkeep t ht hne
              exact ⟨c, hc.saved⟩
  | switch next ret =>
      have hkeep : ∀ t ∈ k.threads, t ≠ k.running → t ≠ next → ∃ c, Waits k' t c :=
        fun t ht hne hother => by
          obtain ⟨c, hc⟩ := hwaits t ht hne
          exact ⟨c, hc.step h hstep (by simp) (by simpa using Ne.symm hother)⟩
      have hnext : next ∈ k.threads ∧ next ≠ k.running ∧ k'.threads = k.threads := by
        cases hstep with
        | switch hnext hne _ => exact ⟨hnext, hne, rfl⟩
      obtain ⟨hmem, hne, hthreads⟩ := hnext
      obtain ⟨c, hc⟩ := h.saved next hmem hne
      obtain ⟨hres, -, hold, -⟩ := h.switch hstep hc
      have hrun : k'.running = next := hres.running
      rw [← hthreads] at hkeep hmem
      refine ⟨hthreads ▸ h.page, by rw [hrun]; exact hmem, fun t ht hnot => ?_⟩
      by_cases heq : t = k.running
      · exact ⟨_, heq ▸ hold.saved⟩
      · obtain ⟨c, hc⟩ := hkeep t ht heq fun heq' => hnot (heq'.trans hrun.symm)
        exact ⟨c, hc.saved⟩
  | free u =>
      cases hstep with
      | free hne =>
          refine ⟨fun t ht => h.page t (List.mem_filter.mp ht).1, ?_, fun t ht hnot => ?_⟩
          · exact List.mem_filter.mpr ⟨h.running, decide_eq_true (Ne.symm hne)⟩
          · exact h.saved t (List.mem_filter.mp ht).1 hnot

/-- What comes between two switches of a thread. -/
def Keeps (t : Nat) (a : Act) : Prop := a ≠ .free t ∧ ∀ ret, a ≠ .switch t ret

/-- **Runs.** A thread that waits goes on, at the next switch to it, in the context that it
saved. -/
theorem Waits.resumes (h : Inv k) (hw : Waits k t c) {ts ts' : List (Transition Kernel Act)}
    {τ : Transition Kernel Act} (hrun : Run (Step sym) k (ts ++ τ :: ts'))
    (hkeep : ∀ σ ∈ ts, Keeps t σ.label) (hτ : τ.label = .switch t ret) :
    Resumes τ.post.machine t c ∧ (τ.post.machine.reg .eax).toNat = τ.pre.running := by
  have hinv : Inv τ.pre ∧ Waits τ.pre t c :=
    hrun.guarded_until (I := fun k => Inv k ∧ Waits k t c) (C := fun _ a => Keeps t a)
      (fun k a k' hk ha hs => ⟨hk.1.step hs, hk.2.step hk.1 hs ha.1 ha.2⟩) ⟨h, hw⟩ hkeep
  have hstep := hrun.step_of_mem τ (by simp)
  rw [hτ] at hstep
  obtain ⟨hres, heax, -⟩ := hinv.1.switch hstep hinv.2.saved
  exact ⟨hres, heax⟩

/-! ### A run

The initial thread creates another one and switches to it, which switches back. -/

def sampleSymbols : Symbols := ⟨1, 2, 3, 4, 5⟩

def sampleKernel (mem : Mem) : Kernel :=
  ⟨⟨fun r => if r = .esp then 6000 else 9, 0, mem⟩, [4096]⟩

def sampleBoot : Kernel := sampleKernel fun _ => 0

theorem sampleKernel_booted (mem : Mem) : Booted (sampleKernel mem) := by
  have hrunning : (sampleKernel mem).running = 4096 := by
    show pgRoundDown 6000 = 4096
    decide
  refine ⟨by rw [hrunning]; rfl, ?_⟩
  rw [hrunning]
  exact ⟨by decide, by decide, by decide⟩

/-- A thread is created, runs, and switches back to the first one, which continues with the
stack pointer that it had and its memory as it was. -/
theorem exists_kernel_run (mem : Mem) : ∃ k₁ k₂ k₃ : Kernel,
    Run (Step sampleSymbols) (sampleKernel mem)
      [⟨sampleKernel mem, .create 8192 [] 31 2 6 7, k₁⟩, ⟨k₁, .switch 8192 8, k₂⟩,
        ⟨k₂, .switch 4096 9, k₃⟩] ∧
      k₁.running = 4096 ∧ k₁.machine.sp = 6000 ∧ ∀ x < 8192, k₁.machine.mem x = mem x := by
  have hpage : IsPage 8192 := ⟨by decide, by decide, by decide⟩
  have hcreated : ∃ mem', threadCreate sampleSymbols mem 8192 [] 31 2 6 7 = some mem' ∧ _ ∧ _ ∧
      ∀ x, x < 8192 ∨ 8192 + PGSIZE ≤ x → mem' x = mem x :=
    threadCreate_saved hpage (by decide) (by decide)
  obtain ⟨mem', hmem, -, -, hout⟩ := hcreated
  obtain ⟨k₁, hk₁⟩ : ∃ k₁ : Kernel,
    k₁ = ⟨{ (sampleKernel mem).machine with mem := mem' }, [8192, 4096]⟩ := ⟨_, rfl⟩
  have hcreate : Step sampleSymbols (sampleKernel mem) (.create 8192 [] 31 2 6 7) k₁ := by
    rw [hk₁]
    exact .create (by show 8192 ∉ [4096]; decide) hpage hmem
  have hrunning : k₁.running = 4096 := by
    rw [hk₁]
    show pgRoundDown 6000 = 4096
    decide
  have hthreads : k₁.threads = [8192, 4096] := by rw [hk₁]
  have hinv := (sampleKernel_booted mem).inv.step hcreate
  obtain ⟨k₂, hk₂⟩ : ∃ k₂ : Kernel,
    k₂ = { k₁ with machine := (callSwitch sampleSymbols k₁.machine 8192 8).run switchThreads } :=
      ⟨_, rfl⟩
  have hswitch : Step sampleSymbols k₁ (.switch 8192 8) k₂ := by
    rw [hk₂]
    refine .switch (by rw [hthreads]; decide) (by rw [hrunning]; decide) ?_
    rw [hrunning, hk₁]
    show 4096 + 56 + 28 ≤ 6000
    decide
  obtain ⟨hres, -⟩ :=
    hinv.switch hswitch ((sampleKernel_booted mem).inv.create hcreate).1.saved
  have hrunning₂ : k₂.running = 8192 := hres.running
  have hthreads₂ : k₂.threads = [8192, 4096] := by rw [hk₂]; exact hthreads
  have hback : Step sampleSymbols k₂ (.switch 4096 9)
      { k₂ with machine := (callSwitch sampleSymbols k₂.machine 4096 9).run switchThreads } := by
    refine .switch (by rw [hthreads₂]; decide) (by rw [hrunning₂]; decide) ?_
    rw [hrunning₂, hres.sp]
    show 8192 + 56 + 28 ≤ 8192 + 4096 - 24
    decide
  refine ⟨k₁, k₂, _, .cons hcreate (.cons hswitch (.cons hback (.nil _))), hrunning, ?_, ?_⟩
  · rw [hk₁]
    rfl
  · intro x hx
    rw [hk₁]
    exact hout x (Or.inl hx)

theorem sampleBoot_booted : Booted sampleBoot := sampleKernel_booted _

theorem exists_sample_run : ∃ k₁ k₂ k₃ : Kernel,
    Run (Step sampleSymbols) sampleBoot
      [⟨sampleBoot, .create 8192 [] 31 2 6 7, k₁⟩, ⟨k₁, .switch 8192 8, k₂⟩,
        ⟨k₂, .switch 4096 9, k₃⟩] ∧ k₁.running = 4096 := by
  obtain ⟨k₁, k₂, k₃, hrun, hrunning, -⟩ := exists_kernel_run fun _ => 0
  exact ⟨k₁, k₂, k₃, hrun, hrunning⟩

/-! ### Coming back -/

/-- The machine `m'` is back from a call of `switch_threads` in `m`. -/
structure Back (m m' : Processor) (ret : UInt32) : Prop where
  eip : m'.eip = ret
  sp : m'.sp + 8 = m.sp
  reg : ∀ r ∈ calleeSaved, m'.reg r = m.reg r
  stack : ∀ x, m.sp ≤ x → x < runningThread m + PGSIZE → m'.mem x = m.mem x
  running : runningThread m' = runningThread m

/-- A switch away from a thread and the next one back to it. -/
theorem Inv.back (hpre : Inv k) (hpost : Inv k') (hstep : Step sym k (.switch next ret) k')
    {ts₂ ts₃ : List (Transition Kernel Act)} {σ : Transition Kernel Act} {ret' : UInt32}
    (hrun : Run (Step sym) k' (ts₂ ++ σ :: ts₃)) (hσ : σ.label = .switch k.running ret')
    (hkeep : ∀ υ ∈ ts₂, Keeps k.running υ.label) :
    Back k.machine σ.post.machine ret ∧ (σ.post.machine.reg .eax).toNat = σ.pre.running := by
  have hside : next ∈ k.threads ∧ next ≠ k.running ∧
      k.running + sizeofThread + 28 ≤ k.machine.sp := by
    generalize k' = k'' at hstep
    cases hstep with
    | switch hnext hne hroom => exact ⟨hnext, hne, hroom⟩
  obtain ⟨hnext, hne, hroom⟩ := hside
  obtain ⟨c, hc⟩ := hpre.saved next hnext hne
  obtain ⟨-, -, hwaits, -⟩ := hpre.switch hstep hc
  obtain ⟨hres, heax⟩ := hwaits.resumes hpost hrun hkeep hσ
  obtain ⟨hsp, heip, hreg, hstack⟩ := callContext_spec (m := k.machine) (by omega)
  refine ⟨⟨?_, ?_, fun r hr => ?_, fun x hl hu => ?_, hres.running⟩, heax⟩
  · rw [hres.eip, heip]
  · rw [hres.sp, hsp]
  · rw [hres.reg r hr, hreg r hr]
  · rw [hres.stack x (by omega) hu, hstack x hl]

/-- **Context switches.** Whatever other threads do in between, a thread that calls
`switch_threads` returns from it when it is switched to again, on its own stack and with
its registers, and learns which thread ran before it. -/
theorem switch_returns (hboot : Booted k) {ts₁ ts₂ ts₃ : List (Transition Kernel Act)}
    {τ σ : Transition Kernel Act} {ret' : UInt32}
    (hrun : Run (Step sym) k (ts₁ ++ τ :: (ts₂ ++ σ :: ts₃)))
    (hτ : τ.label = .switch next ret) (hσ : σ.label = .switch τ.pre.running ret')
    (hkeep : ∀ υ ∈ ts₂, Keeps τ.pre.running υ.label) :
    Back τ.pre.machine σ.post.machine ret ∧
      (σ.post.machine.reg .eax).toNat = σ.pre.running := by
  have hmem : τ ∈ ts₁ ++ τ :: (ts₂ ++ σ :: ts₃) := by simp
  obtain ⟨hpre, hpost⟩ :=
    hrun.invariant (I := Inv) (fun _ _ _ h hs => h.step hs) hboot.inv τ hmem
  have hstep := hrun.step_of_mem τ hmem
  rw [hτ] at hstep
  exact hpre.back hpost hstep hrun.suffix hσ hkeep

theorem switch_returns_sample :
    ∃ k₁ k₂ k₃ : Kernel, Run (Step sampleSymbols) sampleBoot
        [⟨sampleBoot, .create 8192 [] 31 2 6 7, k₁⟩, ⟨k₁, .switch 8192 8, k₂⟩,
          ⟨k₂, .switch 4096 9, k₃⟩] ∧
      Back k₁.machine k₃.machine 8 ∧ (k₃.machine.reg .eax).toNat = k₂.running := by
  obtain ⟨k₁, k₂, k₃, hrun, hrunning⟩ := exists_sample_run
  have hrun' : Run (Step sampleSymbols) sampleBoot
      ([⟨sampleBoot, .create 8192 [] 31 2 6 7, k₁⟩] ++ ⟨k₁, .switch 8192 8, k₂⟩ ::
        ([] ++ ⟨k₂, .switch 4096 9, k₃⟩ :: [])) := hrun
  exact ⟨k₁, k₂, k₃, hrun, switch_returns sampleBoot_booted hrun' rfl (by rw [← hrunning])
    (by simp)⟩

/-- **New threads.** The first switch to a thread goes through `switch_entry`, which calls
`thread_switch_tail` with the thread that ran before, into `kernel_thread` with the
function and the argument that `thread_create` was given. -/
theorem create_starts (hboot : Booted k) {ts₁ ts₂ ts₃ : List (Transition Kernel Act)}
    {τ σ : Transition Kernel Act} {name : List UInt8} {priority : Nat} {tid function aux : UInt32}
    (hrun : Run (Step sym) k (ts₁ ++ τ :: (ts₂ ++ σ :: ts₃)))
    (hτ : τ.label = .create t name priority tid function aux) (hσ : σ.label = .switch t ret)
    (hkeep : ∀ υ ∈ ts₂, Keeps t υ.label) :
    σ.post.machine.eip = sym.switchEntry ∧ runningThread σ.post.machine = t ∧
      ∃ prev, prev.toNat = σ.pre.running ∧
        Entered (σ.post.machine.run (switchEntry sym)) sym.threadSwitchTail sym.afterTail [prev] ∧
        ∀ m, Returned (σ.post.machine.run (switchEntry sym)) m t →
          m.eip = sym.afterTail ∧
            Entered (m.run switchEntryEnd) sym.kernelThread 0 [function, aux] := by
  have hmem : τ ∈ ts₁ ++ τ :: (ts₂ ++ σ :: ts₃) := by simp
  obtain ⟨hpre, hpost⟩ :=
    hrun.invariant (I := Inv) (fun _ _ _ h hs => h.step hs) hboot.inv τ hmem
  have hstep := hrun.step_of_mem τ hmem
  rw [hτ] at hstep
  obtain ⟨hwaits, hwords⟩ := hpre.create hstep
  obtain ⟨hres, heax⟩ := hwaits.resumes hpost hrun.suffix hkeep hσ
  obtain ⟨heip, hentered, hreturned⟩ := hres.switchEntry (hpost.page t hwaits.mem) hwords
  exact ⟨heip, hres.running, σ.post.machine.reg .eax, heax, hentered, hreturned⟩

theorem create_starts_sample :
    ∃ k₁ k₂ k₃ : Kernel, Run (Step sampleSymbols) sampleBoot
        [⟨sampleBoot, .create 8192 [] 31 2 6 7, k₁⟩, ⟨k₁, .switch 8192 8, k₂⟩,
          ⟨k₂, .switch 4096 9, k₃⟩] ∧
      k₂.machine.eip = 2 ∧ runningThread k₂.machine = 8192 ∧
      ∃ prev, prev.toNat = k₁.running ∧
        Entered (k₂.machine.run (switchEntry sampleSymbols)) 4 3 [prev] ∧
        ∀ m, Returned (k₂.machine.run (switchEntry sampleSymbols)) m 8192 →
          m.eip = 3 ∧ Entered (m.run switchEntryEnd) 5 0 [6, 7] := by
  obtain ⟨k₁, k₂, k₃, hrun, -⟩ := exists_sample_run
  have hrun' : Run (Step sampleSymbols) sampleBoot
      ([] ++ ⟨sampleBoot, .create 8192 [] 31 2 6 7, k₁⟩ ::
        ([] ++ ⟨k₁, .switch 8192 8, k₂⟩ :: [⟨k₂, .switch 4096 9, k₃⟩])) := hrun
  exact ⟨k₁, k₂, k₃, hrun, create_starts sampleBoot_booted hrun' rfl rfl (by simp)⟩

end Kernel

end OsTools.Threads

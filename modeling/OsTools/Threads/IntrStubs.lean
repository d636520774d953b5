import OsTools.Lib.Trap
import OsTools.Threads.Switch
/-!
# OsTools.Threads.IntrStubs

The way into an interrupt handler and back, `threads/intr-stubs.S`: the stubs of
the 256 vectors, `intr_entry`, which completes the `struct intr_frame` on the
stack, and `intr_exit`, which restores the registers from it.

The processor pushes an error code for some vectors. A stub of the kind `REAL`
expects one, the others push a zero instead; the results are about interrupts for
which the two agree. (They do not for a stack fault: vector 0x0c has a stub of the
other kind.)

## Proof shape

Going in is a sequence of pushes, so that the frame is described by the list of its words,
and each part of the code adds some in front (`intrStub_spec`, `saveRegisters_spec`). Coming
back is a sequence of pops over memory of which no more is known than that it holds such a
list (`leave_eq`). A handler may do what it likes as long as the words are there when it is
back, and the two lists are the same one, so that all registers are as before
(`Entered.leave`).

Preemption adds the switch of threads in the middle. `Threads.Switch` says that a thread
comes back from it with its stack as it was, and the frame is on its stack.
-/

namespace OsTools.Threads

open OsTools.Vm (PGSIZE)

def SEL_KCSEG : UInt16 := 0x08
def SEL_KDSEG : UInt16 := 0x10

namespace Intr

/-- The vectors with stubs of the kind `REAL`. -/
def realVectors : List UInt8 := [0x08, 0x0a, 0x0b, 0x0d, 0x0e, 0x11, 0x18, 0x1a, 0x1b, 0x1d, 0x1e]

/-- `intrNN_stub`, up to its jump. -/
def intrStub (vec : UInt8) : List TrapInstr :=
  (if vec ∈ realVectors then [.pushFrom 0 .esp, .movTo .ebp 4 .esp]
    else [.base (.pushl .ebp), .pushImm 0]) ++
    [.pushImm vec.toUInt32]

/-- `intr_entry`; the handler is at `handler` and returns to `after`. -/
def intrEntry (handler after : UInt32) : List TrapInstr :=
  [.pushSeg .ds, .pushSeg .es, .pushSeg .fs, .pushSeg .gs, .pushal,
    .cld, .movImm SEL_KDSEG.toUInt32 .eax, .movSeg .eax .ds, .movSeg .eax .es, .lea 56 .esp .ebp,
    .base (.pushl .esp), .base (.call handler after)]

/-- The end of `intr_entry`. -/
def intrReturn : List TrapInstr := [.base (.addl 4 .esp)]

def intrExit : List TrapInstr :=
  [.popal, .popSeg .gs, .popSeg .fs, .popSeg .es, .popSeg .ds, .base (.addl 12 .esp), .iret]

end Intr

/-- `struct intr_frame`. -/
structure IntrFrame where
  edi : UInt32
  esi : UInt32
  ebp : UInt32
  espDummy : UInt32
  ebx : UInt32
  edx : UInt32
  ecx : UInt32
  eax : UInt32
  gs : UInt16
  fs : UInt16
  es : UInt16
  ds : UInt16
  vecNo : UInt32
  errorCode : UInt32
  framePointer : UInt32
  eip : UInt32
  cs : UInt16
  eflags : UInt32
  esp : UInt32
  ss : UInt16

namespace IntrFrame

/-- What `intr_entry` and the stubs push, and what the processor pushes in any case. -/
def pushedHere (f : IntrFrame) : List UInt32 :=
  [f.edi, f.esi, f.ebp, f.espDummy, f.ebx, f.edx, f.ecx, f.eax,
    f.gs.toUInt32, f.fs.toUInt32, f.es.toUInt32, f.ds.toUInt32]

def pushedByStub (f : IntrFrame) : List UInt32 := [f.vecNo, f.errorCode, f.framePointer]

def pushedByCpu (f : IntrFrame) : List UInt32 := [f.eip, f.cs.toUInt32, f.eflags]

def fromUser (f : IntrFrame) : Bool := f.cs &&& 3 = 3

/-- The last two members are there for interrupts of user code only. -/
def outer (f : IntrFrame) : List UInt32 := if f.fromUser then [f.esp, f.ss.toUInt32] else []

/-- The words of a frame in memory. -/
def words (f : IntrFrame) : List UInt32 :=
  f.pushedHere ++ (f.pushedByStub ++ (f.pushedByCpu ++ f.outer))

/-- The registers that a frame holds, where the stack pointer is `esp`. -/
def reg (f : IntrFrame) (esp : UInt32) : Reg → UInt32
  | .eax => f.eax
  | .ebx => f.ebx
  | .ecx => f.ecx
  | .edx => f.edx
  | .esi => f.esi
  | .edi => f.edi
  | .ebp => f.ebp
  | .esp => esp

def seg (f : IntrFrame) (ss : UInt16) : Seg → UInt16
  | .cs => f.cs
  | .ss => ss
  | .ds => f.ds
  | .es => f.es
  | .fs => f.fs
  | .gs => f.gs

end IntrFrame

namespace Intr

variable {c h : Core} {tss : Tss} {gate : Gate} {vec : UInt8} {err : Option UInt32}
  {handler after : UInt32} {f : IntrFrame}

/-- The frame of an interrupt of `c`. -/
def frameOf (c : Core) (vec : UInt8) (err : Option UInt32) (espDummy : UInt32) : IntrFrame where
  edi := c.reg .edi
  esi := c.reg .esi
  ebp := c.reg .ebp
  espDummy := espDummy
  ebx := c.reg .ebx
  edx := c.reg .edx
  ecx := c.reg .ecx
  eax := c.reg .eax
  gs := c.seg .gs
  fs := c.seg .fs
  es := c.seg .es
  ds := c.seg .ds
  vecNo := vec.toUInt32
  errorCode := err.getD 0
  framePointer := c.reg .ebp
  eip := c.eip
  cs := c.seg .cs
  eflags := c.eflags
  esp := c.reg .esp
  ss := c.seg .ss

/-- The interrupt, and the code up to the handler. -/
def enter (c : Core) (tss : Tss) (gate : Gate) (vec : UInt8) (err : Option UInt32)
    (handler after : UInt32) : Core :=
  ((c.interrupt tss gate err).execs (intrStub vec)).execs (intrEntry handler after)

/-- From the handler's return on. -/
def leave (h : Core) : Core := (h.execs intrReturn).execs intrExit

/-! ### The way in -/

theorem interruptWords_reverse (vec : UInt8) (dummy : UInt32) :
    (c.interruptWords err).reverse = err.toList ++
      ((frameOf c vec err dummy).pushedByCpu ++ (frameOf c vec err dummy).outer) := by
  have huser : (frameOf c vec err dummy).fromUser = c.userMode := rfl
  unfold Core.interruptWords IntrFrame.outer
  rw [huser]
  cases c.userMode <;> cases err <;> rfl

/-- A stub of the first kind has the words pushed that one of the kind `REAL` has after the
processor's error code. -/
theorem intrStub_spec (gate : Gate) (hstub : err.isSome = decide (vec ∈ realVectors))
    (hroom : 32 ≤ (c.handlerStack tss).sp) (dummy : UInt32) :
    Processor.Stacked (c.handlerStack tss)
        ((c.interrupt tss gate err).execs (intrStub vec)).toProcessor
        ((frameOf c vec err dummy).pushedByStub ++
          ((frameOf c vec err dummy).pushedByCpu ++ (frameOf c vec err dummy).outer)) ∧
      (∀ r, r ≠ .esp → ((c.interrupt tss gate err).execs (intrStub vec)).reg r = c.reg r) ∧
      ((c.interrupt tss gate err).execs (intrStub vec)).seg = (c.interrupt tss gate err).seg := by
  obtain ⟨hstacked, hreg⟩ := Core.interrupt_stacked c tss gate err (by omega)
  rw [interruptWords_reverse vec dummy] at hstacked
  generalize c.interrupt tss gate err = c₁ at hstacked hreg
  have hsp := hstacked.sp
  have houter : (frameOf c vec err dummy).outer.length ≤ 2 := by
    unfold IntrFrame.outer
    split <;> simp
  cases err with
  | none =>
      have hzero : intrStub vec =
          [.base (.pushl .ebp), .pushImm 0, .pushImm vec.toUInt32] := by
        unfold intrStub
        rw [if_neg (by simpa using hstub)]
        rfl
      have hroom₁ : 12 ≤ c₁.sp := by
        rw [List.length_append, List.length_append] at hsp
        have : (frameOf c vec none dummy).pushedByCpu.length = 3 := rfl
        have : (none : Option UInt32).toList.length = 0 := rfl
        omega
      have hpush : Processor.Pushed c₁.toProcessor
          (c₁.toProcessor.pushes [c₁.reg .ebp, 0, vec.toUInt32])
          [c₁.reg .ebp, 0, vec.toUInt32].reverse := Processor.pushed_pushes hroom₁
      rw [hzero]
      refine ⟨?_, fun r hr => (hpush.reg r hr).trans (hreg r hr), rfl⟩
      have hwords : (frameOf c vec none dummy).pushedByStub =
          [c₁.reg .ebp, 0, vec.toUInt32].reverse := by
        rw [hreg .ebp (by decide)]
        rfl
      rw [hwords]
      exact hstacked.trans hpush.stacked
  | some e =>
      have hreal : intrStub vec =
          [.pushFrom 0 .esp, .movTo .ebp 4 .esp, .pushImm vec.toUInt32] := by
        unfold intrStub
        rw [if_pos (by simpa using hstub)]
        rfl
      have hroom₁ : 8 ≤ c₁.sp := by
        rw [List.length_append, List.length_append] at hsp
        have : (frameOf c vec (some e) dummy).pushedByCpu.length = 3 := rfl
        have : (some e).toList.length = 1 := rfl
        omega
      have herr : c₁.mem.word (c₁.reg .esp + 0).toNat = e := by
        rw [UInt32.add_zero]
        exact hstacked.words.1
      -- the error code once more, and the frame pointer in place of the first one
      obtain ⟨h₂, hreg₂⟩ := Core.push_stacked (c := c₁) (v := e) (by omega)
      have hs₂ : (c₁.push e).sp + 4 = c₁.sp := h₂.sp
      have hadd : ((c₁.push e).reg .esp + 4).toNat = (c₁.push e).sp + 4 := by
        have hlt : (c₁.push e).sp + 4 < 2 ^ 32 := by
          rw [hs₂]
          exact (c₁.reg .esp).toNat_lt
        rw [UInt32.toNat_add]
        exact Nat.mod_eq_of_lt hlt
      have h₃ : Processor.Stacked (c.handlerStack tss)
          ((c₁.push e).exec (.movTo .ebp 4 .esp)).toProcessor
          (e :: c.reg .ebp :: ((frameOf c vec (some e) dummy).pushedByCpu ++
            (frameOf c vec (some e) dummy).outer)) := by
        refine (hstacked.trans h₂).second rfl ?_
        show (c₁.push e).mem.setWord ((c₁.push e).reg .esp + 4).toNat ((c₁.push e).reg .ebp) = _
        rw [hadd, hreg₂ .ebp (by decide), hreg .ebp (by decide)]
      obtain ⟨h₄, hreg₄⟩ := Core.push_stacked (c := (c₁.push e).exec (.movTo .ebp 4 .esp))
        (v := vec.toUInt32) (by show 4 ≤ (c₁.push e).sp; omega)
      rw [hreal]
      simp only [Core.execs_cons, Core.execs_nil]
      rw [show c₁.exec (.pushFrom 0 .esp) = c₁.push e by rw [← herr]; rfl]
      refine ⟨h₃.trans h₄, fun r hr => ?_, rfl⟩
      exact (hreg₄ r hr).trans ((hreg₂ r hr).trans (hreg r hr))

/-- The words that `intr_entry` pushes, the last one first. -/
def savedWords (c : Core) (dummy : UInt32) : List UInt32 :=
  [c.reg .edi, c.reg .esi, c.reg .ebp, dummy, c.reg .ebx, c.reg .edx, c.reg .ecx, c.reg .eax,
    (c.seg .gs).toUInt32, (c.seg .fs).toUInt32, (c.seg .es).toUInt32, (c.seg .ds).toUInt32]

/-- The three parts of `intr_entry`. -/
def saveRegisters : List TrapInstr :=
  [.pushSeg .ds, .pushSeg .es, .pushSeg .fs, .pushSeg .gs, .pushal]

def kernelEnvironment : List TrapInstr :=
  [.cld, .movImm SEL_KDSEG.toUInt32 .eax, .movSeg .eax .ds, .movSeg .eax .es, .lea 56 .esp .ebp]

def callHandler (handler after : UInt32) : List TrapInstr :=
  [.base (.pushl .esp), .base (.call handler after)]

theorem intrEntry_eq (handler after : UInt32) :
    intrEntry handler after =
      saveRegisters ++ (kernelEnvironment ++ callHandler handler after) := rfl

/-- The stub's common part pushes the segment registers and then the general ones, of which
the word for `esp` is not used again. -/
theorem saveRegisters_spec (hroom : 48 ≤ c.sp) :
    (∃ dummy, Processor.Stacked c.toProcessor (c.execs saveRegisters).toProcessor
      (savedWords c dummy)) ∧
      (c.execs saveRegisters).seg = c.seg := by
  have h₁ : Processor.Pushed c.toProcessor
      (c.pushes [(c.seg .ds).toUInt32, (c.seg .es).toUInt32, (c.seg .fs).toUInt32,
        (c.seg .gs).toUInt32]) _ :=
    Processor.pushed_pushes (by show 4 * 4 ≤ c.sp; omega)
  have hsave : c.execs saveRegisters =
      ({ c with
        toProcessor := c.pushes [(c.seg .ds).toUInt32, (c.seg .es).toUInt32,
          (c.seg .fs).toUInt32, (c.seg .gs).toUInt32] } : Core).exec .pushal := rfl
  rw [hsave]
  generalize c.pushes [(c.seg .ds).toUInt32, (c.seg .es).toUInt32, (c.seg .fs).toUInt32,
    (c.seg .gs).toUInt32] = d at h₁
  have hd : d.sp + 4 * 4 = c.sp := h₁.sp
  have h₂ : Processor.Pushed d
      (d.pushes ([Reg.eax, .ecx, .edx, .ebx, .esp, .ebp, .esi, .edi].map d.reg))
      ([Reg.eax, .ecx, .edx, .ebx, .esp, .ebp, .esi, .edi].map d.reg).reverse :=
    Processor.pushed_pushes (by show 4 * 8 ≤ d.sp; omega)
  have hregs : ([Reg.eax, .ecx, .edx, .ebx, .esp, .ebp, .esi, .edi].map d.reg).reverse =
      [c.reg .edi, c.reg .esi, c.reg .ebp, d.reg .esp, c.reg .ebx, c.reg .edx, c.reg .ecx,
        c.reg .eax] := by
    simp only [List.map_cons, List.map_nil, List.reverse_cons, List.reverse_nil, List.nil_append,
      List.cons_append, h₁.reg .eax (by decide), h₁.reg .ecx (by decide),
      h₁.reg .edx (by decide), h₁.reg .ebx (by decide), h₁.reg .ebp (by decide),
      h₁.reg .esi (by decide), h₁.reg .edi (by decide)]
  rw [hregs] at h₂
  exact ⟨⟨d.reg .esp, h₁.stacked.trans h₂.stacked⟩, rfl⟩

theorem kernelEnvironment_spec :
    (c.execs kernelEnvironment).sp = c.sp ∧ (c.execs kernelEnvironment).mem = c.mem ∧
      (c.execs kernelEnvironment).reg .ebp = c.reg .esp + 56 ∧
      (c.execs kernelEnvironment).seg =
        Function.update (Function.update c.seg .ds SEL_KDSEG) .es SEL_KDSEG :=
  ⟨rfl, rfl, rfl, rfl⟩

theorem callHandler_spec (handler after : UInt32) (hroom : 8 ≤ c.sp) :
    Processor.Stacked c.toProcessor (c.execs (callHandler handler after)).toProcessor
        [after, c.reg .esp] ∧
      (c.execs (callHandler handler after)).eip = handler ∧
      (∀ r, r ≠ .esp → (c.execs (callHandler handler after)).reg r = c.reg r) ∧
      (c.execs (callHandler handler after)).seg = c.seg := by
  have hpush : Processor.Pushed c.toProcessor (c.pushes [c.reg .esp, after])
      [after, c.reg .esp] := Processor.pushed_pushes (by show 4 * 2 ≤ c.sp; omega)
  exact ⟨⟨hpush.sp, hpush.words, hpush.outside⟩, rfl, hpush.reg, rfl⟩

/-- What the handler finds: its return address, a pointer to the frame, and the frame. The frame
pointer continues the chain of the interrupted code. -/
structure Entered (c : Core) (tss : Tss) (vec : UInt8) (err : Option UInt32)
    (handler after : UInt32) (s : Core) : Prop where
  stacked : ∃ dummy, Processor.Stacked (c.handlerStack tss) s.toProcessor
    (after :: UInt32.ofNat (s.sp + 8) :: (frameOf c vec err dummy).words)
  eip : s.eip = handler
  ebp : (s.reg .ebp).toNat = s.sp + 64
  data : s.seg .ds = SEL_KDSEG ∧ s.seg .es = SEL_KDSEG
  kernel : s.seg .cs = SEL_KCSEG ∧ (c.userMode = false → s.seg .ss = c.seg .ss)

/-- The way in, from the interrupt to the handler. The stub, the saving of the registers, the
kernel's environment and the call are a piece of code each, with a lemma each; their words are
put on the stack one below the other and make up the frame. -/
theorem enter_spec (handler after : UInt32) (hstub : err.isSome = decide (vec ∈ realVectors))
    (hroom : 88 ≤ (c.handlerStack tss).sp) (hgate : gate.selector = SEL_KCSEG) :
    Entered c tss vec err handler after (enter c tss gate vec err handler after) := by
  have h₁ := intrStub_spec gate hstub (by omega : 32 ≤ (c.handlerStack tss).sp)
  have hcs : (c.interrupt tss gate err).seg .cs = SEL_KCSEG := hgate
  have hss : c.userMode = false → (c.interrupt tss gate err).seg .ss = c.seg .ss := by
    intro huser
    show (if c.userMode then tss.ss0 else c.seg .ss) = _
    rw [huser]
    rfl
  have hdata : ∀ s : Seg, s ≠ .cs → s ≠ .ss → (c.interrupt tss gate err).seg s = c.seg s := by
    intro s hs₁ hs₂
    show Function.update (Function.update c.seg .ss _) .cs _ s = _
    rw [Function.update_of_ne hs₁, Function.update_of_ne hs₂]
  obtain ⟨-, hreg, hseg⟩ := h₁ 0
  unfold enter
  generalize (c.interrupt tss gate err).execs (intrStub vec) = c₁ at h₁ hreg hseg
  rw [← hseg] at hcs hss hdata
  have hsp₁ : c₁.sp + 4 * ((frameOf c vec err 0).outer.length + 1 + 1 + 1 + 1 + 1 + 1) =
      (c.handlerStack tss).sp := (h₁ 0).1.sp
  have houter : (frameOf c vec err 0).outer.length ≤ 2 := by
    unfold IntrFrame.outer
    split <;> simp
  rw [intrEntry_eq, Core.execs_append, Core.execs_append]
  obtain ⟨⟨dummy, h₂⟩, hseg₂⟩ := saveRegisters_spec (c := c₁) (by omega)
  have hsp₂ : (c₁.execs saveRegisters).sp + 4 * 12 = c₁.sp := h₂.sp
  generalize c₁.execs saveRegisters = c₂ at h₂ hseg₂ hsp₂
  obtain ⟨hsp₃, hmem₃, hebp₃, hseg₃⟩ := kernelEnvironment_spec (c := c₂)
  generalize c₂.execs kernelEnvironment = c₃ at hsp₃ hmem₃ hebp₃ hseg₃
  obtain ⟨h₄, heip, hreg₄, hseg₄⟩ :=
    callHandler_spec (c := c₃) handler after (by omega)
  have hsp₄ : (c₃.execs (callHandler handler after)).sp + 4 * 2 = c₃.sp := h₄.sp
  generalize c₃.execs (callHandler handler after) = s at h₄ heip hreg₄ hseg₄ hsp₄
  have hsaved : savedWords c₁ dummy = (frameOf c vec err dummy).pushedHere := by
    unfold savedWords IntrFrame.pushedHere frameOf
    simp only [hreg .edi (by decide), hreg .esi (by decide), hreg .ebp (by decide),
      hreg .ebx (by decide), hreg .edx (by decide), hreg .ecx (by decide), hreg .eax (by decide),
      hdata .gs (by decide) (by decide), hdata .fs (by decide) (by decide),
      hdata .es (by decide) (by decide), hdata .ds (by decide) (by decide)]
  have hpointer : UInt32.ofNat (s.sp + 8) = c₃.reg .esp := by
    rw [show s.sp + 8 = c₃.sp from hsp₄]
    exact UInt32.ofNat_toNat
  rw [hsaved] at h₂
  refine ⟨⟨dummy, ?_⟩, heip, ?_, ?_, ?_, fun huser => ?_⟩
  · rw [hpointer]
    exact (((h₁ dummy).1.trans h₂).keep hsp₃ hmem₃).trans h₄
  · rw [hreg₄ .ebp (by decide), hebp₃, UInt32.toNat_add]
    have hlt : c₂.sp + 56 < 2 ^ 32 := by
      have := ((c.handlerStack tss).reg .esp).toNat_lt
      have : (c.handlerStack tss).sp < 2 ^ 32 := this
      omega
    have hval : (c₂.sp + 56) % 2 ^ 32 = s.sp + 64 := by
      rw [Nat.mod_eq_of_lt hlt]
      omega
    exact hval
  · rw [hseg₄, hseg₃]
    exact ⟨rfl, rfl⟩
  · rw [hseg₄, hseg₃, hseg₂]
    exact hcs
  · rw [hseg₄, hseg₃, hseg₂]
    exact hss huser

/-! ### The way out -/

theorem pushedHere_eq (f : IntrFrame) : f.pushedHere =
    ([Reg.edi, .esi, .ebp].map (f.reg 0) ++
      (f.espDummy :: [Reg.ebx, .edx, .ecx, .eax].map (f.reg 0))) ++
      [Seg.gs, .fs, .es, .ds].map fun s => (f.seg 0 s).toUInt32 := rfl

theorem intrExit_eq : intrExit =
    .popal :: ([Seg.gs, .fs, .es, .ds].map .popSeg ++ [.base (.addl 12 .esp), .iret]) := rfl

/-- **The way out** restores everything from the frame. The pieces follow the layout of the
frame from below: the argument of the handler, the general registers, the segment registers,
the words of the stub, which are skipped, and those that `iret` takes. -/
theorem leave_eq {p : UInt32} (hwords : h.mem.Words h.sp (p :: f.words))
    (hroom : h.sp + 4 * (p :: f.words).length < 2 ^ 32) :
    leave h =
      { reg := f.reg (if f.fromUser then f.esp else UInt32.ofNat (h.sp + 76))
        eip := f.eip
        mem := h.mem
        seg := f.seg (if f.fromUser then f.ss else h.seg .ss)
        eflags := f.eflags } := by
  obtain ⟨-, hwords⟩ := hwords
  unfold IntrFrame.words at hwords
  rw [pushedHere_eq, List.append_assoc] at hwords
  obtain ⟨hregs, hwords⟩ := Mem.words_append.1 hwords
  obtain ⟨hsegs, hwords⟩ := Mem.words_append.1 hwords
  obtain ⟨-, hwords⟩ := Mem.words_append.1 hwords
  obtain ⟨hcpu, houter⟩ := Mem.words_append.1 hwords
  have hlen : h.sp + 76 < 2 ^ 32 := by
    have hle : 19 ≤ (p :: f.words).length := by
      unfold IntrFrame.words
      rw [List.length_cons, List.length_append, List.length_append, List.length_append]
      have h₁ : f.pushedHere.length = 12 := rfl
      have h₂ : f.pushedByStub.length = 3 := rfl
      have h₃ : f.pushedByCpu.length = 3 := rfl
      omega
    omega
  unfold leave
  rw [intrExit_eq]
  -- the argument of the handler
  have h₁ : (h.execs intrReturn).sp = h.sp + 4 ∧ (h.execs intrReturn).mem = h.mem ∧
      (h.execs intrReturn).seg = h.seg :=
    ⟨Processor.drop_sp (m := h.toProcessor) (n := 4) (by show h.sp + 4 < 2 ^ 32; omega), rfl, rfl⟩
  generalize h.execs intrReturn = c₁ at h₁
  obtain ⟨hsp₁, hmem₁, hseg₁⟩ := h₁
  obtain ⟨hsp₂, hmem₂, hreg₂, hseg₂, -⟩ := Core.popal_spec (c := c₁) (by omega)
    (by rw [hmem₁, hsp₁]; exact hregs)
  rw [Core.execs_cons]
  generalize c₁.exec .popal = c₂ at hsp₂ hmem₂ hreg₂ hseg₂
  have hsegs' : c₂.mem.Words c₂.sp
      ([Seg.gs, .fs, .es, .ds].map fun s => (f.seg 0 s).toUInt32) := by
    rw [hmem₂, hmem₁, hsp₂, hsp₁]
    exact hsegs
  obtain ⟨hsp₃, hmem₃, hreg₃, hin₃, hout₃⟩ := Core.execs_popSeg (by decide)
    (by show c₂.sp + 4 * 4 < 2 ^ 32; omega) hsegs'
  rw [Core.execs_append]
  generalize c₂.execs ([Seg.gs, .fs, .es, .ds].map .popSeg) = c₃ at hsp₃ hmem₃ hreg₃ hin₃ hout₃
  have hsp₃' : c₃.sp = c₂.sp + 16 := hsp₃
  -- the words of the stub
  have hsp₄ : (c₃.exec (.base (.addl 12 .esp))).sp = h.sp + 64 := by
    have hdrop : (c₃.toProcessor.drop 12).sp = c₃.sp + 12 :=
      Processor.drop_sp (n := 12) (by show c₃.sp + 12 < 2 ^ 32; omega)
    rw [show (c₃.exec (.base (.addl 12 .esp))).sp = (c₃.toProcessor.drop 12).sp from rfl, hdrop]
    omega
  have hmem₄ : (c₃.exec (.base (.addl 12 .esp))).mem = h.mem := by
    rw [show (c₃.exec (.base (.addl 12 .esp))).mem = c₃.mem from rfl, hmem₃, hmem₂, hmem₁]
  have hreg₄ : ∀ r, r ≠ .esp → (c₃.exec (.base (.addl 12 .esp))).reg r = f.reg 0 r := by
    intro r hr
    rw [show (c₃.exec (.base (.addl 12 .esp))).reg r = (c₃.toProcessor.drop 12).reg r from rfl,
      Processor.drop_reg hr, hreg₃ r hr, hreg₂ r hr]
  have hseg₄ : (c₃.exec (.base (.addl 12 .esp))).seg = c₃.seg := rfl
  rw [Core.execs_cons, Core.execs_cons, Core.execs_nil]
  generalize c₃.exec (.base (.addl 12 .esp)) = c₄ at hsp₄ hmem₄ hreg₄ hseg₄
  obtain ⟨heip, heflags, hmem, hreg, hcs, hseg, hesp, hss⟩ :=
    Core.iret_spec (c := c₄) (by rw [hmem₄, hsp₄]; exact hcpu)
  have hespLow : c₄.reg .esp + 12 = UInt32.ofNat (h.sp + 76) := by
    refine UInt32.toNat_inj.1 ?_
    have h₁ : (c₄.reg .esp).toNat = h.sp + 64 := hsp₄
    rw [UInt32.toNat_add, h₁]
    show (h.sp + 64 + 12) % 2 ^ 32 = (UInt32.ofNat (h.sp + 76)).toNat
    rw [UInt32.toNat_ofNat']
  have houter' : f.fromUser = true →
      h.mem.word (h.sp + 76) = f.esp ∧ h.mem.word (h.sp + 80) = f.ss.toUInt32 := by
    intro huser
    unfold IntrFrame.outer at houter
    rw [if_pos huser] at houter
    obtain ⟨h₁, h₂, -⟩ := houter
    exact ⟨h₁, h₂⟩
  have huser : (f.cs &&& 3 = 3) = (f.fromUser = true) := by
    unfold IntrFrame.fromUser
    rw [decide_eq_true_eq]
  show c₄.iret = _
  refine Core.ext (funext fun r => ?_) heip (hmem.trans hmem₄) (funext fun s => ?_) heflags
  · by_cases hr : r = .esp
    · rw [hr, hesp]
      simp only [huser]
      by_cases hfrom : f.fromUser = true
      · rw [if_pos hfrom, if_pos hfrom, hmem₄, hsp₄, (houter' hfrom).1]
        rfl
      · rw [if_neg hfrom, if_neg hfrom, hespLow]
        rfl
    · rw [hreg r hr, hreg₄ r hr]
      cases r <;> first | rfl | exact absurd rfl hr
  · by_cases hs : s = .ss
    · rw [hs, hss]
      simp only [huser]
      by_cases hfrom : f.fromUser = true
      · rw [if_pos hfrom, if_pos hfrom, hmem₄, hsp₄, (houter' hfrom).2,
          UInt16.toUInt16_toUInt32]
        rfl
      · rw [if_neg hfrom, if_neg hfrom, hseg₄, hout₃ .ss (by decide), hseg₂, hseg₁]
        rfl
    · by_cases hs' : s = .cs
      · rw [hs', hcs]
        rfl
      · rw [hseg s hs' hs, hseg₄, hin₃ s (by cases s <;> simp_all)]
        cases s <;> first | rfl | exact absurd rfl hs

/-! ### There and back -/

/-- The bytes of the frame that a handler for `c` found in the state `s`. -/
def InFrame (c : Core) (tss : Tss) (s : Core) (x : Nat) : Prop :=
  s.sp + 8 ≤ x ∧ x < (c.handlerStack tss).sp

/-- The handler that was entered in the state `s` is back at `intr_entry` in the state `h`, and
the frame is as it was in `mem`. -/
structure Handled (c : Core) (tss : Tss) (s : Core) (mem : Mem) (h : Core) : Prop where
  sp : h.sp = s.sp + 4
  ss : h.seg .ss = s.seg .ss
  frame : ∀ x, InFrame c tss s x → h.mem x = mem x

/-- `intr_exit` undoes what was done on the way in. -/
theorem Entered.leave {handler after : UInt32} {s : Core}
    (hentered : Entered c tss vec err handler after s)
    (hh : Handled c tss s s.mem h) : leave h = { c with mem := h.mem } := by
  obtain ⟨dummy, hstacked⟩ := hentered.stacked
  have hsize := hstacked.sp
  have hkernel := hentered.kernel.2
  obtain ⟨-, -, hframe⟩ := hstacked.words
  rw [List.length_cons, List.length_cons] at hsize
  have hwords : h.mem.Words h.sp
      (h.mem.word h.sp :: (frameOf c vec err dummy).words) := by
    refine ⟨rfl, ?_⟩
    rw [hh.sp]
    exact hframe.congr fun x hl hu => hh.frame x ⟨hl, by omega⟩
  have hlt : (c.handlerStack tss).sp < 2 ^ 32 := ((c.handlerStack tss).reg .esp).toNat_lt
  rw [leave_eq hwords (by rw [List.length_cons, hh.sp]; omega)]
  refine Core.ext (funext fun r => ?_) rfl rfl (funext fun s => ?_) rfl
  · have hesp : (if (frameOf c vec err dummy).fromUser then c.reg .esp
        else UInt32.ofNat (h.sp + 76)) = c.reg .esp := by
      by_cases huser : c.userMode = true
      · exact if_pos huser
      · have hlow : c.handlerStack tss = c.toProcessor := if_neg huser
        have houter : (frameOf c vec err dummy).outer = [] := if_neg huser
        have hlen : (frameOf c vec err dummy).words.length = 18 := by
          unfold IntrFrame.words
          rw [houter]
          rfl
        rw [hlow, hlen] at hsize
        rw [show h.sp + 76 = c.sp by rw [hh.sp]; omega]
        rw [show UInt32.ofNat c.sp = c.reg .esp from UInt32.ofNat_toNat]
        exact ite_self _
    cases r <;> first | rfl | exact hesp
  · have hss : (if (frameOf c vec err dummy).fromUser then c.seg .ss else h.seg .ss) =
        c.seg .ss := by
      by_cases huser : c.userMode = true
      · exact if_pos huser
      · rw [hh.ss, hkernel (by simpa using huser)]
        exact ite_self _
    cases s <;> first | rfl | exact hss

/-- **Interrupts** are not seen by the code that they interrupt: after a handler that leaves
the frame alone, whatever else it does to the registers, all of them are as before.
`enter_spec` says where the registers are while the handler runs, and `leave_eq` that they
come from there. -/
theorem interrupt_transparent (handler after : UInt32)
    (hstub : err.isSome = decide (vec ∈ realVectors))
    (hroom : 88 ≤ (c.handlerStack tss).sp) (hgate : gate.selector = SEL_KCSEG) :
    Entered c tss vec err handler after (enter c tss gate vec err handler after) ∧
      ∀ h, Handled c tss (enter c tss gate vec err handler after)
          (enter c tss gate vec err handler after).mem h →
        leave h = { c with mem := h.mem } := by
  have hentered := enter_spec handler after hstub hroom hgate
  exact ⟨hentered, fun h hh => hentered.leave hh⟩

/-- User code that makes a page fault. -/
def sampleCore : Core where
  reg r := if r = .esp then 0xbffffff0 else 9
  eip := 0x8048000
  mem _ := 0
  seg s := if s = .cs then 0x1b else 0x23
  eflags := 0x202

theorem interrupt_transparent_sample :
    Entered sampleCore ⟨8192, SEL_KDSEG⟩ 0x0e (some 4) 1 2
        (enter sampleCore ⟨8192, SEL_KDSEG⟩ ⟨0, SEL_KCSEG, false, 0⟩ 0x0e (some 4) 1 2) ∧
      ∀ h, Handled sampleCore ⟨8192, SEL_KDSEG⟩
          (enter sampleCore ⟨8192, SEL_KDSEG⟩ ⟨0, SEL_KCSEG, false, 0⟩ 0x0e (some 4) 1 2)
          (enter sampleCore ⟨8192, SEL_KDSEG⟩ ⟨0, SEL_KCSEG, false, 0⟩ 0x0e (some 4) 1 2).mem h →
        leave h = { sampleCore with mem := h.mem } :=
  interrupt_transparent 1 2 (by decide) (by decide) rfl

/-! ### Preemption -/

open OsTools.Threads.Kernel

variable {k : Kernel} {sym : Symbols} {next : Nat} {ret ret' : UInt32}

/-- A state inside the handler that was entered in the state `s`. -/
structure Inside (c : Core) (tss : Tss) (s : Core) (m : Processor) : Prop where
  sp : m.sp ≤ s.sp + 8
  frame : ∀ x, InFrame c tss s x → m.mem x = s.mem x

/-- **Preemption** is not seen either. The handler's thread calls `switch_threads`, other threads
run, and the thread is switched to again and returns from the interrupt: the interrupted code
goes on with all of its registers. -/
theorem preempted_resumes (hboot : Booted k) {ts₁ ts₂ ts₃ : List (Transition Kernel Act)}
    {τ σ : Transition Kernel Act} (hrun : Run (Kernel.Step sym) k (ts₁ ++ τ :: (ts₂ ++ σ :: ts₃)))
    (hτ : τ.label = .switch next ret) (hσ : σ.label = .switch τ.pre.running ret')
    (hkeep : ∀ υ ∈ ts₂, Keeps τ.pre.running υ.label)
    (hstub : err.isSome = decide (vec ∈ realVectors))
    (hroom : 88 ≤ (c.handlerStack tss).sp) (hgate : gate.selector = SEL_KCSEG)
    (hstack : (c.handlerStack tss).sp ≤ τ.pre.running + PGSIZE)
    (hinside : Inside c tss (enter c tss gate vec err handler after) τ.pre.machine)
    (hhandled : Handled c tss (enter c tss gate vec err handler after) σ.post.machine.mem h) :
    leave h = { c with mem := h.mem } := by
  have hmem : τ ∈ ts₁ ++ τ :: (ts₂ ++ σ :: ts₃) := by simp
  obtain ⟨hpre, hpost⟩ :=
    hrun.invariant (I := Inv) (fun _ _ _ h hs => h.step hs) hboot.inv τ hmem
  have hstep := hrun.step_of_mem τ hmem
  rw [hτ] at hstep
  obtain ⟨hback, -⟩ := hpre.back hpost hstep hrun.suffix hσ hkeep
  have hentered := enter_spec handler after hstub hroom hgate
  refine hentered.leave ⟨hhandled.sp, hhandled.ss, fun x hx => ?_⟩
  have hlow : τ.pre.machine.sp ≤ x := Nat.le_trans hinside.sp hx.1
  have hhigh : x < runningThread τ.pre.machine + PGSIZE := Nat.lt_of_lt_of_le hx.2 hstack
  rw [hhandled.frame x hx, hback.stack x hlow hhigh]
  exact hinside.frame x hx

/-- Kernel code that is interrupted by the timer. -/
def sampleKernelCore : Core where
  reg r := if r = .esp then 8000 else 9
  eip := 0xc0020000
  mem _ := 0
  seg s := if s = .cs then SEL_KCSEG else SEL_KDSEG
  eflags := 0x202

def sampleHandler : Core :=
  enter sampleKernelCore ⟨8192, SEL_KDSEG⟩ ⟨0, SEL_KCSEG, false, 0⟩ 0x20 none 1 2

/-- The handler is back, with zeros in the registers. -/
def sampleReturn (mem : Mem) : Core where
  reg r := if r = .esp then 7924 else 0
  eip := 2
  mem := mem
  seg s := if s = .cs then SEL_KCSEG else SEL_KDSEG
  eflags := 2

theorem preempted_resumes_sample : ∃ k₁ k₂ k₃ : Kernel,
    Run (Kernel.Step sampleSymbols) (sampleKernel sampleHandler.mem)
      [⟨sampleKernel sampleHandler.mem, .create 8192 [] 31 2 6 7, k₁⟩, ⟨k₁, .switch 8192 8, k₂⟩,
        ⟨k₂, .switch 4096 9, k₃⟩] ∧
    leave (sampleReturn k₃.machine.mem) = { sampleKernelCore with mem := k₃.machine.mem } := by
  obtain ⟨k₁, k₂, k₃, hrun, hrunning, hsp, hmem⟩ := exists_kernel_run sampleHandler.mem
  refine ⟨k₁, k₂, k₃, hrun, ?_⟩
  have hrun' : Run (Kernel.Step sampleSymbols) (sampleKernel sampleHandler.mem)
      ([⟨sampleKernel sampleHandler.mem, .create 8192 [] 31 2 6 7, k₁⟩] ++
        ⟨k₁, .switch 8192 8, k₂⟩ :: ([] ++ ⟨k₂, .switch 4096 9, k₃⟩ :: [])) := hrun
  have hsp' : sampleHandler.sp = 7920 := by decide
  have hss : sampleHandler.seg .ss = SEL_KDSEG := by decide
  have hinside : Inside sampleKernelCore ⟨8192, SEL_KDSEG⟩ sampleHandler k₁.machine :=
    ⟨by rw [hsp, hsp']; decide, fun x hx => hmem x (Nat.lt_trans hx.2 (by decide))⟩
  have hhandled : Handled sampleKernelCore ⟨8192, SEL_KDSEG⟩ sampleHandler k₃.machine.mem
      (sampleReturn k₃.machine.mem) :=
    ⟨by rw [hsp']; rfl, by rw [hss]; rfl, fun _ _ => rfl⟩
  exact preempted_resumes (sampleKernel_booted _) hrun' rfl (by rw [← hrunning]) (by simp)
    (by decide) (by decide) rfl (by rw [hrunning]; decide) hinside hhandled

end Intr

end OsTools.Threads

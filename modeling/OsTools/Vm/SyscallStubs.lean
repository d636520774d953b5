import OsTools.Threads.IntrStubs
import OsTools.Vm.SyscallArgs
/-!
# OsTools.Vm.SyscallStubs

A system call from the user's side and back: the macros `syscall0` to `syscall3` of
`lib/user/syscall.c` push the arguments and raise interrupt 0x30, `syscall_handler` reads them
through the stack pointer of the frame, and its result comes back in `eax`.

The operands of a macro are constants or registers other than `esp`. One in memory, which
`syscall1` allows for its argument, has the same effect as a constant.

A process may push more arguments than the handler reads, as `syscall2` does for every call that
has two: none of these is implemented. `given` are the ones that count.

The proof goes along the path of the words. `syscallPush_spec` says where the macro leaves
them, `enter` and the stub do not touch them (`enter_spec`), and so the handler finds them
(`Given`) and does what `served_eq` says. On the way back `leave_eq` restores all registers from
the frame, in which only `eax` was changed.
-/

namespace OsTools.Vm.SyscallStubs

open OsTools.Threads OsTools.Threads.Intr OsTools.Vm.SyscallArgs

inductive Operand
  | imm (v : UInt32)
  | reg (r : Reg)
  deriving DecidableEq

namespace Operand

def value (c : Core) : Operand → UInt32
  | .imm v => v
  | .reg r => c.reg r

def push : Operand → TrapInstr
  | .imm v => .pushImm v
  | .reg r => .base (.pushl r)

end Operand

/-- `syscallN` up to its interrupt. -/
def syscallPush (number : UInt32) (args : List Operand) : List TrapInstr :=
  args.reverse.map Operand.push ++ [.pushImm number]

/-- The end of `syscallN`. -/
def syscallPop (args : List Operand) : List TrapInstr :=
  [.base (.addl (UInt32.ofNat (4 * (args.length + 1))) .esp)]

/-- The arguments that the handler reads, of those that were pushed. -/
def given (number : Nat) (args : List Nat) : List Nat := args.take (argc number)

/-- What a process asks for. -/
def asked (k : Callees) (file : Bool) (number : Nat) : List Nat → List SyscallArgs.Event
  | [a] =>
      if number = SYS_EXIT then syscallExit (toInt32 a)
      else if number = SYS_OPEN then syscallOpen k file a
      else if number = SYS_CLOSE then syscallClose file (toInt32 a)
      else [.sbrk (toInt32 a), .eax k.sbrk]
  | [fd, buffer, size] =>
      if number = SYS_READ then syscallRead k file (toInt32 fd) buffer size
      else syscallWrite k file (toInt32 fd) buffer size
  | _ => [.unimplemented (toInt32 number)]

def isWord : SyscallArgs.Event → Bool
  | .word _ => true
  | _ => false

/-- What the handler does, apart from reading the arguments. -/
def served (k : Callees) (file : Bool) (m : Mem) (esp : Nat) : List SyscallArgs.Event :=
  (syscallHandler k file m esp).filter fun e => !isWord e

/-! ### The handler -/

section Handler

variable {k : Callees} {file : Bool} {m : Mem} {esp : Nat} {args : List Nat}

theorem served_open (filename : Nat) :
    (syscallOpen k file filename).filter (fun e => !isWord e) = syscallOpen k file filename := by
  unfold syscallOpen
  split
  · rfl
  · split <;> rfl

theorem served_write (fd : Int) (buffer size : Nat) :
    (syscallWrite k file fd buffer size).filter (fun e => !isWord e) =
      syscallWrite k file fd buffer size := by
  unfold syscallWrite
  split
  · rfl
  · split <;> rfl

theorem served_read (fd : Int) (buffer size : Nat) :
    (syscallRead k file fd buffer size).filter (fun e => !isWord e) =
      syscallRead k file fd buffer size := by
  unfold syscallRead
  split <;> rfl

theorem served_close (fd : Int) :
    (syscallClose file fd).filter (fun e => !isWord e) = syscallClose file fd := by
  unfold syscallClose
  split <;> rfl

/-- The arguments of a call on the stack of the process. -/
structure Given (m : Mem) (esp : Nat) (args : List Nat) : Prop where
  below : esp + 4 * (args.length + 1) ≤ PHYS_BASE
  arity : args.length = argc (arg m esp 0)
  args : ∀ i (h : i < args.length), arg m esp (i + 1) = args[i]

/-- The memory that the arguments point to is the process's own. -/
def Allowed (m : Mem) (number : Nat) : List Nat → Prop
  | [a] => number = SYS_OPEN → EndsInUser m a
  | [_, buffer, size] => Below buffer size
  | _ => True

theorem validateString_pos {b : Nat} {next : List SyscallArgs.Event} (h : EndsInUser m b) :
    validateString m b next = next := by
  obtain ⟨n, hn, hnull⟩ := h
  have hb : b < PHYS_BASE := by omega
  have hdelta : sub32 PHYS_BASE b = PHYS_BASE - b := sub32_eq (Nat.le_of_lt hb) (by decide)
  unfold validateString
  rw [hdelta, if_neg]
  rintro (huser | hlen)
  · unfold isUserVaddr at huser
    exact absurd hb (of_decide_eq_false huser)
  · exact (strnlen_eq_iff b _).mp hlen n (by omega) hnull

/-- The words of the arguments pass their check. -/
theorem Given.below_args (h : Given m esp args) :
    argAddr esp 0 = esp ∧ Below esp 4 ∧
      (0 < args.length → Below (argAddr esp 1) (4 * args.length)) := by
  have hbelow := h.below
  have hesp : esp < PHYS_BASE := by omega
  refine ⟨argAddr_eq hesp (by decide), ⟨hesp, by omega⟩, fun hpos => ?_⟩
  rw [argAddr_eq hesp (by decide)]
  exact ⟨by omega, by omega⟩

theorem filter_validateBuffer (b n : Nat) (next : List SyscallArgs.Event) :
    (validateBuffer b n next).filter (fun e => !isWord e) =
      if Below b n then next.filter fun e => !isWord e else [.exit (-1)] := by
  rw [validateBuffer_eq]
  split <;> rfl

theorem filter_word (a : Nat) (next : List SyscallArgs.Event) :
    (SyscallArgs.Event.word a :: next).filter (fun e => !isWord e) =
      next.filter fun e => !isWord e :=
  rfl

/-- Calls with one argument. -/
theorem Given.one (h : Given m esp args) (hargc : argc (arg m esp 0) = 1) :
    args = [arg m esp 1] ∧ Below (argAddr esp 1) 4 := by
  have hlen : args.length = 1 := h.arity.trans hargc
  obtain ⟨a, rfl⟩ := List.length_eq_one_iff.1 hlen
  exact ⟨by rw [h.args 0 (by simp)]; rfl, h.below_args.2.2 (by simp)⟩

/-- Calls with three. -/
theorem Given.three (h : Given m esp args) (hargc : argc (arg m esp 0) = 3) :
    args = [arg m esp 1, arg m esp 2, arg m esp 3] ∧ Below (argAddr esp 1) 12 := by
  have hlen : args.length = 3 := h.arity.trans hargc
  obtain ⟨a, b, c, rfl⟩ := List.length_eq_three.1 hlen
  refine ⟨?_, h.below_args.2.2 (by simp)⟩
  rw [h.args 0 (by simp), h.args 1 (by simp), h.args 2 (by simp)]
  rfl

/-- The handler does what the process asks for if that is in its memory, and ends it
otherwise. One case for each number, in the order of the handler; the events that fetch words
have been taken out of both sides. -/
theorem served_eq (k : Callees) (file : Bool) (h : Given m esp args) :
    (Allowed m (arg m esp 0) args → served k file m esp = asked k file (arg m esp 0) args) ∧
      (¬ Allowed m (arg m esp 0) args → served k file m esp = [.exit (-1)]) := by
  obtain ⟨hzero, hfirst, -⟩ := h.below_args
  unfold served syscallHandler
  dsimp only
  rw [hzero, filter_validateBuffer, if_pos hfirst, filter_word]
  by_cases hexit : arg m esp 0 = SYS_EXIT
  · obtain ⟨rfl, hword⟩ := h.one (by rw [hexit]; rfl)
    rw [if_pos hexit, filter_validateBuffer, if_pos hword, filter_word]
    refine ⟨fun _ => ?_, fun hnot => absurd (fun hopen => ?_) hnot⟩
    · rw [asked, if_pos hexit]
      rfl
    · rw [hexit] at hopen
      exact absurd hopen (by decide)
  rw [if_neg hexit]
  by_cases hopen : arg m esp 0 = SYS_OPEN
  · obtain ⟨rfl, hword⟩ := h.one (by rw [hopen]; rfl)
    rw [if_pos hopen, filter_validateBuffer, if_pos hword, filter_word]
    refine ⟨fun hallowed => ?_, fun hnot => ?_⟩
    · rw [validateString_pos (hallowed hopen), filter_word, served_open]
      rw [asked, if_neg hexit, if_pos hopen]
    · rw [validateString_of fun hends => hnot fun _ => hends]
      rfl
  rw [if_neg hopen]
  by_cases hwrite : arg m esp 0 = SYS_WRITE
  · obtain ⟨rfl, hword⟩ := h.three (by rw [hwrite]; rfl)
    rw [if_pos hwrite, filter_validateBuffer, if_pos hword, filter_word, filter_word,
      filter_validateBuffer]
    refine ⟨fun hallowed => ?_, fun hnot => if_neg hnot⟩
    rw [if_pos (show Below _ _ from hallowed), filter_word, filter_word, filter_word, served_write]
    rw [asked, if_neg (by rw [hwrite]; decide)]
  rw [if_neg hwrite]
  by_cases hread : arg m esp 0 = SYS_READ
  · obtain ⟨rfl, hword⟩ := h.three (by rw [hread]; rfl)
    rw [if_pos hread, filter_validateBuffer, if_pos hword, filter_word, filter_word,
      filter_validateBuffer]
    refine ⟨fun hallowed => ?_, fun hnot => if_neg hnot⟩
    rw [if_pos (show Below _ _ from hallowed), filter_word, filter_word, filter_word, served_read]
    rw [asked, if_pos hread]
  rw [if_neg hread]
  by_cases hclose : arg m esp 0 = SYS_CLOSE
  · obtain ⟨rfl, hword⟩ := h.one (by rw [hclose]; rfl)
    rw [if_pos hclose, filter_validateBuffer, if_pos hword, filter_word, served_close]
    refine ⟨fun _ => ?_, fun hnot => absurd (fun hopen' => absurd hopen' hopen) hnot⟩
    rw [asked, if_neg hexit, if_neg hopen, if_pos hclose]
  rw [if_neg hclose]
  by_cases hsbrk : arg m esp 0 = SYS_SBRK
  · obtain ⟨rfl, -⟩ := h.one (by rw [hsbrk]; rfl)
    rw [if_pos hsbrk]
    refine ⟨fun _ => ?_, fun hnot => absurd (fun hopen' => absurd hopen' hopen) hnot⟩
    rw [asked, if_neg hexit, if_neg hopen, if_neg hclose]
    rfl
  · have hargc : argc (arg m esp 0) = 0 := by
      simp [argc, hexit, hopen, hwrite, hread, hclose, hsbrk]
    obtain rfl := List.length_eq_zero_iff.1 (h.arity.trans hargc)
    rw [if_neg hsbrk]
    exact ⟨fun _ => rfl, fun hnot => absurd trivial hnot⟩

end Handler

/-! ### The process -/

variable {c : Core} {tss : Tss} {gate : Gate} {handler after : UInt32} {args : List Operand}

/-- Pushing operands. -/
theorem execs_push (ops : List Operand) (hops : Operand.reg .esp ∉ ops)
    (hroom : 4 * ops.length ≤ c.sp) :
    Processor.Pushed c.toProcessor (c.execs (ops.map Operand.push)).toProcessor
        (ops.reverse.map (Operand.value c)) ∧
      (c.execs (ops.map Operand.push)).seg = c.seg ∧
      (c.execs (ops.map Operand.push)).eflags = c.eflags := by
  induction ops generalizing c with
  | nil => exact ⟨⟨rfl, fun _ _ => rfl, rfl, trivial, fun _ _ => rfl⟩, rfl, rfl⟩
  | cons op ops ih =>
      rw [List.length_cons] at hroom
      rw [List.mem_cons, not_or] at hops
      have hexec : c.exec op.push = c.push (op.value c) := by
        cases op <;> rfl
      have hpush : Processor.Pushed c.toProcessor (c.push (op.value c)).toProcessor
          [op.value c] := Processor.pushed_push (by show 4 ≤ c.sp; omega)
      have hsp : (c.push (op.value c)).sp + 4 = c.sp := hpush.sp
      obtain ⟨hrest, hseg, hflags⟩ := ih (c := c.push (op.value c)) hops.2 (by omega)
      have hvalues : ops.reverse.map (Operand.value (c.push (op.value c))) =
          ops.reverse.map (Operand.value c) := by
        refine List.map_congr_left fun o ho => ?_
        cases o with
        | imm v => rfl
        | reg r =>
            refine hpush.reg r fun hr => hops.2 ?_
            rw [← hr]
            exact List.mem_reverse.1 ho
      rw [hvalues] at hrest
      rw [List.map_cons, Core.execs_cons, hexec, List.reverse_cons, List.map_append]
      exact ⟨hpush.trans hrest, hseg, hflags⟩

theorem syscallPush_spec (number : UInt32) (hargs : Operand.reg .esp ∉ args)
    (hroom : 4 * (args.length + 1) ≤ c.sp) :
    Processor.Pushed c.toProcessor (c.execs (syscallPush number args)).toProcessor
        (number :: args.map (Operand.value c)) ∧
      (c.execs (syscallPush number args)).seg = c.seg ∧
      (c.execs (syscallPush number args)).eflags = c.eflags := by
  have hcode : syscallPush number args =
      (args.reverse ++ [Operand.imm number]).map Operand.push := by
    rw [List.map_append]
    rfl
  have hall := execs_push (c := c) (args.reverse ++ [Operand.imm number])
    (by simpa using hargs) (by simpa using hroom)
  rw [List.reverse_append, List.reverse_reverse, List.reverse_singleton,
    List.singleton_append] at hall
  rw [hcode]
  exact hall

theorem arg_of_words {m : Mem} {esp : Nat} {ws : List UInt32} (hwords : m.Words esp ws)
    (hroom : esp + 4 * ws.length ≤ 2 ^ 32) {i : Nat} (hi : i < ws.length) :
    arg m esp i = ws[i].toNat := by
  have hload : m.load (esp + 4 * i) 4 < UInt32.size := Mem.load_lt m (esp + 4 * i) 4
  have haddr : argAddr esp i = esp + 4 * i := add32_nat (by omega)
  rw [← hwords.word hi]
  unfold arg Mem.word
  rw [haddr, UInt32.toNat_ofNat_of_lt' hload]

/-- `f->eax = eax`. -/
def setEax (f : IntrFrame) (eax : UInt32) : IntrFrame := { f with eax }

/-- The handler is back, and the frame has its result. -/
structure Answered (c : Core) (s h : Core) (eax : UInt32) : Prop where
  sp : h.sp = s.sp + 4
  frame : ∃ dummy, h.mem.Words (s.sp + 8) (setEax (frameOf c 0x30 none dummy) eax).words

/-- **System calls.** The handler gets the arguments that the process pushes, of which there must
be as many as it reads, and does what it asks for, if the memory that they point to is its own;
the process goes on behind the interrupt, with the result in `eax` and all other registers as they
were. -/
theorem syscall_round_trip (k : Callees) (file : Bool) (number : UInt32) (args : List Operand)
    (huser : c.userMode = true)
    (hargs : Operand.reg .esp ∉ args) (hroom : 4 * (args.length + 1) ≤ c.sp)
    (hsp : c.sp ≤ PHYS_BASE) (htss : PHYS_BASE + 88 ≤ tss.esp0.toNat)
    (hgate : gate.selector = SEL_KCSEG) (harity : argc number.toNat ≤ args.length)
    {c₁ s : Core} (hc₁ : c₁ = c.execs (syscallPush number args))
    (hs : s = enter c₁ tss gate 0x30 none handler after) {values : List Nat}
    (hvalues : values = given number.toNat (args.map fun op => (op.value c).toNat)) :
    (Allowed s.mem number.toNat values →
        served k file s.mem c₁.sp = asked k file number.toNat values) ∧
      (¬ Allowed s.mem number.toNat values → served k file s.mem c₁.sp = [.exit (-1)]) ∧
      ∀ h eax, Answered c₁ s h eax →
        ((leave h).execs (syscallPop args)).toProcessor =
          { c.toProcessor.setReg .eax eax with mem := h.mem } ∧
        ((leave h).execs (syscallPop args)).seg = c.seg := by
  obtain ⟨hpush, hseg, -⟩ := syscallPush_spec (c := c) number hargs hroom
  rw [← hc₁] at hpush hseg
  have hsp₁ : c₁.sp + 4 * (args.length + 1) = c.sp := by
    have := hpush.sp
    rwa [List.length_cons, List.length_map] at this
  have huser₁ : c₁.userMode = true := by
    unfold Core.userMode at huser ⊢
    rw [hseg]
    exact huser
  have hbase : (c₁.handlerStack tss).sp = tss.esp0.toNat ∧
      (c₁.handlerStack tss).mem = c₁.mem := by
    unfold Core.handlerStack
    rw [if_pos huser₁]
    refine ⟨?_, rfl⟩
    unfold Processor.sp
    rw [Processor.setReg_reg, if_pos rfl]
  have hentered : Entered c₁ tss 0x30 none handler after s := by
    rw [hs]
    exact enter_spec handler after (by decide) (by rw [hbase.1]; omega) hgate
  obtain ⟨dummy, hstacked⟩ := hentered.stacked
  have hlen : ∀ f : IntrFrame, f.fromUser = true → f.words.length = 20 := by
    intro f hf
    unfold IntrFrame.words IntrFrame.outer
    rw [if_pos hf]
    rfl
  have hsize : s.sp + 88 = tss.esp0.toNat := by
    have := hstacked.sp
    rwa [List.length_cons, List.length_cons, hlen (frameOf c₁ 0x30 none dummy) huser₁,
      hbase.1] at this
  have hwords : s.mem.Words c₁.sp (number :: args.map (Operand.value c)) := by
    refine hpush.words.congr fun x _ hu => ?_
    rw [List.length_cons, List.length_map] at hu
    rw [hstacked.outside x (Or.inl (by omega)), hbase.2]
  have harg : ∀ i (hi : i < (number :: args.map (Operand.value c)).length),
      arg s.mem c₁.sp i = ((number :: args.map (Operand.value c))[i]).toNat := by
    intro i hi
    refine arg_of_words hwords ?_ hi
    rw [List.length_cons, List.length_map]
    unfold PHYS_BASE at hsp
    omega
  have hnumber : arg s.mem c₁.sp 0 = number.toNat := harg 0 (by simp)
  have hlength : values.length = argc number.toNat := by
    rw [hvalues, given, List.length_take, List.length_map]
    exact Nat.min_eq_left harity
  have hgiven : Given s.mem c₁.sp values := by
    refine ⟨by omega, by rw [hlength, hnumber], fun i hi => ?_⟩
    have hi' : i < args.length := by omega
    rw [harg (i + 1) (by simpa using hi')]
    simp [hvalues, given]
  obtain ⟨hallowed, hrefused⟩ := served_eq k file hgiven
  rw [hnumber] at hallowed hrefused
  refine ⟨hallowed, hrefused, fun h eax hanswered => ?_⟩
  obtain ⟨dummy', hframe⟩ := hanswered.frame
  have hfrom : (setEax (frameOf c₁ 0x30 none dummy') eax).fromUser = true := huser₁
  have hwords' : h.mem.Words h.sp
      (h.mem.word h.sp :: (setEax (frameOf c₁ 0x30 none dummy') eax).words) :=
    ⟨rfl, by rw [hanswered.sp]; exact hframe⟩
  have hlt : tss.esp0.toNat < 2 ^ 32 := tss.esp0.toNat_lt
  rw [leave_eq hwords' (by rw [List.length_cons, hlen _ hfrom, hanswered.sp]; omega),
    if_pos hfrom, if_pos hfrom]
  have hesp : c₁.reg .esp + UInt32.ofNat (4 * (args.length + 1)) = c.reg .esp := by
    refine UInt32.toNat_inj.1 ?_
    have h₁ : (c₁.reg .esp).toNat + 4 * (args.length + 1) = (c.reg .esp).toNat := hsp₁
    have h₂ := (c.reg .esp).toNat_lt
    rw [UInt32.toNat_add, UInt32.toNat_ofNat_of_lt' (by show _ < 2 ^ 32; omega), h₁]
    exact Nat.mod_eq_of_lt h₂
  have hreg : ∀ r, r ≠ .esp → c₁.reg r = c.reg r := hpush.reg
  refine ⟨Processor.ext (funext fun r => ?_) hpush.eip rfl, funext fun s => ?_⟩
  · show Function.update ((setEax (frameOf c₁ 0x30 none dummy') eax).reg (c₁.reg .esp)) .esp
      (c₁.reg .esp + _) r = Function.update c.reg .eax eax r
    rw [hesp]
    cases r <;> first | rfl | exact hreg _ (by decide)
  · rw [← hseg]
    cases s <;> rfl

/-- `sbrk` with its argument in a register. -/
def sampleCall : Core := sampleCore.execs (syscallPush 14 [.reg .ebx])

def sampleEntry : Core :=
  enter sampleCall ⟨0xc0009000, SEL_KDSEG⟩ ⟨0, SEL_KCSEG, true, 3⟩ 0x30 none 1 2

theorem syscall_round_trip_sbrk :
    (Allowed sampleEntry.mem 14 [9] →
        served ⟨false, 0, 0, 7⟩ false sampleEntry.mem sampleCall.sp =
          asked ⟨false, 0, 0, 7⟩ false 14 [9]) ∧
      (¬ Allowed sampleEntry.mem 14 [9] →
        served ⟨false, 0, 0, 7⟩ false sampleEntry.mem sampleCall.sp = [.exit (-1)]) ∧
      ∀ h eax, Answered sampleCall sampleEntry h eax →
        ((leave h).execs (syscallPop [.reg .ebx])).toProcessor =
          { sampleCore.toProcessor.setReg .eax eax with mem := h.mem } ∧
        ((leave h).execs (syscallPop [.reg .ebx])).seg = sampleCore.seg :=
  syscall_round_trip (c := sampleCore) _ _ 14 [.reg .ebx] (by decide) (by decide)
    (by decide) (by decide) (by decide) rfl (by decide) rfl rfl rfl

end OsTools.Vm.SyscallStubs

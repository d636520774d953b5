import OsTools.Lib.Processor
/-!
# OsTools.Lib.Trap

Interrupts of the 32-bit x86: the segment registers and the flags beside the
general registers, what the processor stores when it enters a handler, and the
instructions with which handlers save and restore it.

`Stacked` says what a piece of code leaves on a stack. The flags are tracked for
the instructions that are about them and for `iret`, not for arithmetic. An
`iret` to outer code also clears the segment registers that hold selectors of
inner segments; this is left out, since they are restored before it.

Nothing here mentions a particular program.

A handler is a list of instructions like any other, run by `execs`; what is special is how
it is entered and left. `interrupt` says what the processor puts on which stack, depending
on whether the code that was interrupted is the kernel's, and `iret` takes it from there. A
proof about a handler shows that the words are the same at the end as they were at the
beginning, by `Stacked`, and then `iret_spec` gives back the state before the interrupt.
-/

namespace OsTools

/-- The segment registers. -/
inductive Seg
  | cs
  | ss
  | ds
  | es
  | fs
  | gs
  deriving DecidableEq

@[ext]
structure Core extends Processor where
  seg : Seg → UInt16
  eflags : UInt32

/-- The members of the task-state segment that interrupts use. -/
structure Tss where
  esp0 : UInt32
  ss0 : UInt16

/-- What a descriptor of the interrupt table says. -/
structure Gate where
  offset : UInt32
  selector : UInt16
  /-- Whether interrupts stay enabled. -/
  trap : Bool
  dpl : Nat
  deriving DecidableEq

/-- Instructions for handlers, besides the general ones. -/
inductive TrapInstr
  | base (i : Instr)
  | pushSeg (s : Seg)
  | popSeg (s : Seg)
  /-- `pushl $v`. -/
  | pushImm (v : UInt32)
  /-- `pushl disp(base)`. -/
  | pushFrom (disp : UInt32) (base : Reg)
  /-- `movl $v, dst`. -/
  | movImm (v : UInt32) (dst : Reg)
  /-- `movl src, disp(base)`. -/
  | movTo (src : Reg) (disp : UInt32) (base : Reg)
  /-- `mov r, s`. -/
  | movSeg (r : Reg) (s : Seg)
  /-- `leal disp(base), dst`. -/
  | lea (disp : UInt32) (base dst : Reg)
  | pushal
  | popal
  | cld
  | iret
  deriving DecidableEq

namespace Processor

variable {m m' m₁ m₂ : Processor} {ws vs : List UInt32}

def pushes (m : Processor) (vs : List UInt32) : Processor := vs.foldl push m

theorem pushed_pushes (h : 4 * vs.length ≤ m.sp) : Pushed m (m.pushes vs) vs.reverse := by
  induction vs generalizing m with
  | nil => exact ⟨rfl, fun _ _ => rfl, rfl, trivial, fun _ _ => rfl⟩
  | cons v vs ih =>
      rw [List.length_cons] at h
      have hpush : Pushed m (m.push v) [v] := pushed_push (by omega)
      have hsp : (m.push v).sp + 4 = m.sp := hpush.sp
      rw [List.reverse_cons]
      exact hpush.trans (ih (by omega))

/-- The words `ws` have been put on the stack of `m`. -/
structure Stacked (m m' : Processor) (ws : List UInt32) : Prop where
  sp : m'.sp + 4 * ws.length = m.sp
  words : m'.mem.Words m'.sp ws
  outside : ∀ x, x < m'.sp ∨ m.sp ≤ x → m'.mem x = m.mem x

theorem Pushed.stacked (h : Pushed m m' ws) : Stacked m m' ws := ⟨h.sp, h.words, h.outside⟩

theorem Stacked.trans (h₁ : Stacked m m₁ ws) (h₂ : Stacked m₁ m₂ vs) :
    Stacked m m₂ (vs ++ ws) := by
  have hs₁ := h₁.sp
  have hs₂ := h₂.sp
  refine ⟨?_, ?_, fun x hx => ?_⟩
  · rw [List.length_append]
    omega
  · rw [Mem.words_append, hs₂]
    exact ⟨h₂.words, h₁.words.congr fun x hl _ => h₂.outside x (Or.inr hl)⟩
  · rw [h₂.outside x (by omega), h₁.outside x (by omega)]

/-- Nothing more is put on it where the stack pointer and the memory stay. -/
theorem Stacked.keep (h : Stacked m m₁ ws) (hsp : m₂.sp = m₁.sp) (hmem : m₂.mem = m₁.mem) :
    Stacked m m₂ ws :=
  ⟨by rw [hsp, h.sp], by rw [hsp, hmem]; exact h.words, fun x hx => by
    rw [hmem]
    exact h.outside x (by rwa [hsp] at hx)⟩

/-- The second word is overwritten. -/
theorem Stacked.second {w v v' : UInt32} (h : Stacked m m₁ (w :: v :: ws)) (hsp : m₂.sp = m₁.sp)
    (hmem : m₂.mem = m₁.mem.setWord (m₁.sp + 4) v') : Stacked m m₂ (w :: v' :: ws) := by
  have hs := h.sp
  rw [List.length_cons, List.length_cons] at hs
  obtain ⟨hw, -, hws⟩ := h.words
  refine ⟨by rw [hsp]; exact h.sp, ⟨?_, ?_, ?_⟩, fun x hx => ?_⟩
  · rw [hsp, hmem, Mem.word_setWord_of_disjoint (by omega), hw]
  · rw [hsp, hmem, Mem.word_setWord]
  · rw [hsp, hmem]
    exact hws.congr fun x hl _ => Mem.setWord_of_outside (by omega)
  · rw [hsp] at hx
    rw [hmem, Mem.setWord_of_outside (by omega)]
    exact h.outside x hx

end Processor

namespace Core

variable {c c' : Core}

/-- Whether user code runs. -/
def userMode (c : Core) : Bool := c.seg .cs &&& 3 = 3

def push (c : Core) (v : UInt32) : Core := { c with toProcessor := c.toProcessor.push v }

def setSeg (c : Core) (s : Seg) (v : UInt16) : Core :=
  { c with seg := Function.update c.seg s v }

/-- The flags TF, IF, NT, RF and VM. -/
def FLAG_TF : UInt32 := 0x100
def FLAG_IF : UInt32 := 0x200
def FLAG_DF : UInt32 := 0x400
def FLAG_NT : UInt32 := 0x4000
def FLAG_RF : UInt32 := 0x10000
def FLAG_VM : UInt32 := 0x20000

/-- The flags on entry to a handler. -/
def entryFlags (eflags : UInt32) (trap : Bool) : UInt32 :=
  let eflags := eflags &&& ~~~(FLAG_TF ||| FLAG_NT ||| FLAG_RF ||| FLAG_VM)
  if trap then eflags else eflags &&& ~~~FLAG_IF

/-- The words that the processor stores, the first one first, for an interrupt of `c`. -/
def interruptWords (c : Core) (err : Option UInt32) : List UInt32 :=
  (if c.userMode then [(c.seg .ss).toUInt32, c.reg .esp] else []) ++
    [c.eflags, (c.seg .cs).toUInt32, c.eip] ++ err.toList

/-- An interrupt through a gate to kernel code, with the error code `err` if it has one. -/
def interrupt (c : Core) (tss : Tss) (gate : Gate) (err : Option UInt32) : Core :=
  let stack := if c.userMode then c.toProcessor.setReg .esp tss.esp0 else c.toProcessor
  let ss := if c.userMode then tss.ss0 else c.seg .ss
  { toProcessor := { stack.pushes (c.interruptWords err) with eip := gate.offset }
    seg := Function.update (Function.update c.seg .ss ss) .cs gate.selector
    eflags := entryFlags c.eflags gate.trap }

/-- `iret` from kernel code. -/
def iret (c : Core) : Core :=
  let eip := c.mem.word c.sp
  let cs := (c.mem.word (c.sp + 4)).toUInt16
  let eflags := c.mem.word (c.sp + 8)
  let c' : Core :=
    if cs &&& 3 = 3 then
      { c with
        toProcessor := c.toProcessor.setReg .esp (c.mem.word (c.sp + 12))
        seg := Function.update c.seg .ss (c.mem.word (c.sp + 16)).toUInt16 }
    else { c with toProcessor := c.toProcessor.drop 12 }
  { c' with eip, seg := Function.update c'.seg .cs cs, eflags }

def exec (c : Core) : TrapInstr → Core
  | .base i => { c with toProcessor := c.toProcessor.exec i }
  | .pushSeg s => c.push (c.seg s).toUInt32
  | .popSeg s => { c with toProcessor := c.drop 4 }.setSeg s c.top.toUInt16
  | .pushImm v => c.push v
  | .pushFrom disp base => c.push (c.mem.word (c.reg base + disp).toNat)
  | .movImm v dst => { c with toProcessor := c.setReg dst v }
  | .movTo src disp base =>
      { c with mem := c.mem.setWord (c.reg base + disp).toNat (c.reg src) }
  | .movSeg r s => c.setSeg s (c.reg r).toUInt16
  | .lea disp base dst => { c with toProcessor := c.setReg dst (c.reg base + disp) }
  | .pushal =>
      { c with
        toProcessor := c.pushes
          ([Reg.eax, .ecx, .edx, .ebx, .esp, .ebp, .esi, .edi].map c.reg) }
  | .popal =>
      { c with
        toProcessor := ((c.run ([Reg.edi, .esi, .ebp].map .popl)).drop 4).run
          ([Reg.ebx, .edx, .ecx, .eax].map .popl) }
  | .cld => { c with eflags := c.eflags &&& ~~~FLAG_DF }
  | .iret => c.iret

/-- Run code from its first instruction on. -/
def execs (c : Core) (code : List TrapInstr) : Core := code.foldl exec c

@[simp] theorem execs_nil : c.execs [] = c := rfl

@[simp] theorem execs_cons {i : TrapInstr} {code : List TrapInstr} :
    c.execs (i :: code) = (c.exec i).execs code := rfl

theorem execs_append {code code' : List TrapInstr} :
    c.execs (code ++ code') = (c.execs code).execs code' :=
  List.foldl_append

/-- The stack on which a handler starts. -/
def handlerStack (c : Core) (tss : Tss) : Processor :=
  if c.userMode then c.toProcessor.setReg .esp tss.esp0 else c.toProcessor

theorem push_stacked {v : UInt32} (h : 4 ≤ c.sp) :
    Processor.Stacked c.toProcessor (c.push v).toProcessor [v] ∧
      ∀ r, r ≠ .esp → (c.push v).reg r = c.reg r :=
  ⟨(Processor.pushed_push h).stacked, fun _ hr => Processor.push_reg hr⟩

theorem interrupt_stacked (c : Core) (tss : Tss) (gate : Gate) (err : Option UInt32)
    (hroom : 24 ≤ (c.handlerStack tss).sp) :
    Processor.Stacked (c.handlerStack tss) (c.interrupt tss gate err).toProcessor
        (c.interruptWords err).reverse ∧
      ∀ r, r ≠ .esp → (c.interrupt tss gate err).reg r = c.reg r := by
  have hlen : (c.interruptWords err).length ≤ 6 := by
    unfold interruptWords
    cases c.userMode <;> cases err <;> simp
  have hpush : Processor.Pushed (c.handlerStack tss)
      ((c.handlerStack tss).pushes (c.interruptWords err)) (c.interruptWords err).reverse :=
    Processor.pushed_pushes (by omega)
  refine ⟨⟨hpush.sp, hpush.words, hpush.outside⟩, fun r hr => (hpush.reg r hr).trans ?_⟩
  unfold handlerStack
  split
  · rw [Processor.setReg_reg, if_neg hr]
  · rfl

/-- `iret` to code of the same level takes three words, and otherwise five. -/
theorem iret_spec {eip eflags : UInt32} {cs : UInt16}
    (hwords : c.mem.Words c.sp [eip, cs.toUInt32, eflags]) :
    c.iret.eip = eip ∧ c.iret.eflags = eflags ∧ c.iret.mem = c.mem ∧
      (∀ r, r ≠ .esp → c.iret.reg r = c.reg r) ∧ c.iret.seg .cs = cs ∧
      (∀ s, s ≠ .cs → s ≠ .ss → c.iret.seg s = c.seg s) ∧
      c.iret.reg .esp =
        (if cs &&& 3 = 3 then c.mem.word (c.sp + 12) else c.reg .esp + 12) ∧
      c.iret.seg .ss =
        if cs &&& 3 = 3 then (c.mem.word (c.sp + 16)).toUInt16 else c.seg .ss := by
  obtain ⟨heip, hcs, heflags, -⟩ := hwords
  have hcs' : (c.mem.word (c.sp + 4)).toUInt16 = cs := by rw [hcs, UInt16.toUInt16_toUInt32]
  unfold iret
  rw [heip, hcs', heflags]
  dsimp only
  by_cases huser : cs &&& 3 = 3
  · simp only [if_pos huser]
    refine ⟨trivial, trivial, rfl, fun r hr => ?_, rfl, fun s hs₁ hs₂ => ?_, rfl, rfl⟩
    · rw [Processor.setReg_reg, if_neg hr]
    · rw [Function.update_of_ne hs₁, Function.update_of_ne hs₂]
  · simp only [if_neg huser]
    refine ⟨trivial, trivial, rfl, fun r hr => Processor.drop_reg hr, rfl, fun s hs₁ _ => ?_,
      rfl, rfl⟩
    rw [Function.update_of_ne hs₁]

/-- `popal` takes the words of `g` from the stack, and passes over the one in the middle. -/
theorem popal_spec {g : Reg → UInt32} {dummy : UInt32} (hroom : c.sp + 32 < 2 ^ 32)
    (hwords : c.mem.Words c.sp ([Reg.edi, .esi, .ebp].map g ++
      (dummy :: [Reg.ebx, .edx, .ecx, .eax].map g))) :
    (c.exec .popal).sp = c.sp + 32 ∧ (c.exec .popal).mem = c.mem ∧
      (∀ r, r ≠ .esp → (c.exec .popal).reg r = g r) ∧
      (c.exec .popal).seg = c.seg ∧ (c.exec .popal).eflags = c.eflags := by
  obtain ⟨hlow, -, hhigh⟩ := Mem.words_append.1 hwords
  obtain ⟨hsp₁, hmem₁, -, hreg₁, -⟩ :=
    Processor.run_popl (by decide) (by decide) (by show c.sp + 4 * 3 < 2 ^ 32; omega) hlow
  have hcode : (c.exec .popal).toProcessor =
      ((c.run ([Reg.edi, .esi, .ebp].map .popl)).drop 4).run
        ([Reg.ebx, .edx, .ecx, .eax].map .popl) := rfl
  generalize c.run ([Reg.edi, .esi, .ebp].map .popl) = m₁ at hsp₁ hmem₁ hreg₁ hcode
  have hsp₁' : m₁.sp = c.sp + 12 := hsp₁
  have hsp₂ : (m₁.drop 4).sp = m₁.sp + 4 :=
    Processor.drop_sp (n := 4) (by show m₁.sp + 4 < 2 ^ 32; omega)
  have hwords₃ : (m₁.drop 4).mem.Words (m₁.drop 4).sp ([Reg.ebx, .edx, .ecx, .eax].map g) := by
    rw [Processor.drop_mem, hmem₁, hsp₂, hsp₁']
    exact hhigh
  obtain ⟨hsp₃, hmem₃, -, hreg₃, hout₃⟩ :=
    Processor.run_popl (by decide) (by decide)
      (by show (m₁.drop 4).sp + 4 * 4 < 2 ^ 32; omega) hwords₃
  have hother : ∀ r, r ∈ [Reg.edi, .esi, .ebp] → (c.exec .popal).reg r = g r := by
    intro r hr
    have hne : r ∉ [Reg.ebx, .edx, .ecx, .eax] ∧ r ≠ .esp := by
      cases r <;> simp_all
    rw [hcode, hout₃ r hne.1 hne.2, Processor.drop_reg hne.2, hreg₁ r hr]
  refine ⟨?_, ?_, fun r hr => ?_, rfl, rfl⟩
  · rw [hcode, hsp₃, hsp₂, hsp₁']
    rfl
  · rw [hcode, hmem₃, Processor.drop_mem, hmem₁]
  · by_cases hin : r ∈ [Reg.ebx, .edx, .ecx, .eax]
    · rw [hcode, hreg₃ r hin]
    · refine hother r ?_
      cases r <;> simp_all

/-- Popping into distinct segment registers. -/
theorem execs_popSeg {ss : List Seg} {g : Seg → UInt16} (hnodup : ss.Nodup)
    (hroom : c.sp + 4 * ss.length < 2 ^ 32)
    (hwords : c.mem.Words c.sp (ss.map fun s => (g s).toUInt32)) :
    (c.execs (ss.map .popSeg)).sp = c.sp + 4 * ss.length ∧
      (c.execs (ss.map .popSeg)).mem = c.mem ∧
      (∀ r, r ≠ .esp → (c.execs (ss.map .popSeg)).reg r = c.reg r) ∧
      (∀ s ∈ ss, (c.execs (ss.map .popSeg)).seg s = g s) ∧
      ∀ s, s ∉ ss → (c.execs (ss.map .popSeg)).seg s = c.seg s := by
  induction ss generalizing c with
  | nil => simp
  | cons s ss ih =>
      rw [List.length_cons] at hroom
      obtain ⟨htop, hrest⟩ := Mem.words_cons.mp hwords
      obtain ⟨hnot, hnodup⟩ := List.nodup_cons.mp hnodup
      have hsp : (c.exec (.popSeg s)).sp = c.sp + 4 :=
        Processor.drop_sp (m := c.toProcessor) (n := 4) (by show c.sp + 4 < 2 ^ 32; omega)
      have hseg : (c.exec (.popSeg s)).seg = Function.update c.seg s (g s) := by
        show Function.update c.seg s (c.mem.word c.sp).toUInt16 = _
        rw [htop, UInt16.toUInt16_toUInt32]
      obtain ⟨hs, hm, hr, hin, hout⟩ := ih (c := c.exec (.popSeg s)) hnodup (by omega)
        (by rw [hsp]; exact hrest)
      rw [List.map_cons, execs_cons, List.length_cons]
      refine ⟨by rw [hs, hsp]; omega, hm, fun r hne => ?_, fun s' hs' => ?_, fun s' hs' => ?_⟩
      · rw [hr r hne]
        exact Processor.drop_reg hne
      · rcases List.mem_cons.mp hs' with rfl | hs'
        · rw [hout s' hnot, hseg, Function.update_self]
        · exact hin s' hs'
      · rw [List.mem_cons, not_or] at hs'
        rw [hout s' hs'.2, hseg, Function.update_of_ne hs'.1]

end Core

end OsTools

import Mathlib.Logic.Function.Basic
import OsTools.Lib.Bytes
/-!
# OsTools.Lib.Processor

A fragment of the 32-bit x86: the general registers, byte-addressed memory, and
the instructions that move words between them, push, pop and return.

Code is a list of instructions without jumps; `eip` is set by `ret` and `call`
only and says where such a list leads. `Words` describes a part of a stack from
its lowest address on. Pushing registers and popping them again is proved for
any list of registers.

Nothing here mentions a particular program.

A program of a few instructions is run by `simp` with the definition of each. The lemmas are
for what has a length: pushing and popping lists of registers, which every prologue and
epilogue does, whatever the registers are. The stack is described by what was pushed and by
a frame condition above it (`Pushed`).
-/

namespace OsTools

/-- The general registers. -/
inductive Reg
  | eax
  | ebx
  | ecx
  | edx
  | esi
  | edi
  | ebp
  | esp
  deriving DecidableEq

@[ext]
structure Processor where
  reg : Reg → UInt32
  eip : UInt32
  mem : Mem

/-- Instructions; `movl` is one constructor for each of its addressing modes. -/
inductive Instr
  | pushl (r : Reg)
  | popl (r : Reg)
  /-- `movl sym, dst`, for a symbol whose word is `v`. -/
  | movSym (v : UInt32) (dst : Reg)
  /-- `movl disp(base), dst`. -/
  | movFrom (disp : UInt32) (base dst : Reg)
  /-- `movl (base,index,1), dst`. -/
  | movFromIndexed (base index dst : Reg)
  /-- `movl src, (base,index,1)`. -/
  | movToIndexed (src base index : Reg)
  /-- `addl $n, r`. -/
  | addl (n : UInt32) (r : Reg)
  /-- `call target`, where the next instruction is at `next`. -/
  | call (target next : UInt32)
  | ret
  deriving DecidableEq

namespace Mem

/-- The word at `a`. -/
def word (m : Mem) (a : Nat) : UInt32 := UInt32.ofNat (m.load a 4)

def setWord (m : Mem) (a : Nat) (v : UInt32) : Mem := m.store a 4 v.toNat

variable {m m' : Mem} {a b : Nat} {v : UInt32}

@[simp] theorem word_setWord : (m.setWord a v).word a = v := by
  unfold word setWord
  rw [load_store v.toNat_lt, UInt32.ofNat_toNat]

theorem word_congr (h : ∀ x, a ≤ x → x < a + 4 → m' x = m x) : m'.word a = m.word a := by
  unfold word
  rw [load_congr fun i hi => h (a + i) (by omega) (by omega)]

theorem setWord_of_outside {x : Nat} (h : x < a ∨ a + 4 ≤ x) : m.setWord a v x = m x :=
  blit_of_outside h

theorem word_setWord_of_disjoint (h : a + 4 ≤ b ∨ b + 4 ≤ a) :
    (m.setWord b v).word a = m.word a :=
  word_congr fun x _ _ => setWord_of_outside (by omega)

/-- The words from `a` on. -/
def Words (m : Mem) (a : Nat) : List UInt32 → Prop
  | [] => True
  | w :: ws => m.word a = w ∧ Words m (a + 4) ws

@[simp] theorem words_nil : m.Words a [] := trivial

@[simp] theorem words_cons {w : UInt32} {ws : List UInt32} :
    m.Words a (w :: ws) ↔ m.word a = w ∧ m.Words (a + 4) ws := Iff.rfl

theorem words_append {ws vs : List UInt32} :
    m.Words a (ws ++ vs) ↔ m.Words a ws ∧ m.Words (a + 4 * ws.length) vs := by
  induction ws generalizing a with
  | nil => simp
  | cons w ws ih =>
      rw [List.cons_append, words_cons, words_cons, ih, and_assoc, List.length_cons]
      rw [show a + 4 + 4 * ws.length = a + 4 * (ws.length + 1) by omega]

theorem Words.congr {ws : List UInt32} (h : m.Words a ws)
    (heq : ∀ x, a ≤ x → x < a + 4 * ws.length → m' x = m x) : m'.Words a ws := by
  induction ws generalizing a with
  | nil => trivial
  | cons w ws ih =>
      rw [List.length_cons] at heq
      refine ⟨(word_congr fun x hl hu => heq x hl (by omega)).trans h.1, ih h.2 fun x hl hu => ?_⟩
      exact heq x (by omega) (by omega)

theorem Words.word {ws : List UInt32} (h : m.Words a ws) {i : Nat} (hi : i < ws.length) :
    m.word (a + 4 * i) = ws[i] := by
  induction ws generalizing a i with
  | nil => simp at hi
  | cons w ws ih =>
      cases i with
      | zero => exact h.1
      | succ i =>
          rw [show a + 4 * (i + 1) = a + 4 + 4 * i by omega, List.getElem_cons_succ]
          exact ih h.2 (Nat.lt_of_succ_lt_succ hi)

end Mem

namespace Processor

variable {m m' : Processor} {r r' : Reg} {v : UInt32}

def setReg (m : Processor) (r : Reg) (v : UInt32) : Processor :=
  { m with reg := Function.update m.reg r v }

/-- The stack pointer, as an address. -/
def sp (m : Processor) : Nat := (m.reg .esp).toNat

@[simp] theorem setReg_reg : (m.setReg r v).reg r' = if r' = r then v else m.reg r' :=
  Function.update_apply ..

@[simp] theorem setReg_mem : (m.setReg r v).mem = m.mem := rfl
@[simp] theorem setReg_eip : (m.setReg r v).eip = m.eip := rfl

theorem setReg_sp (h : r ≠ .esp) : (m.setReg r v).sp = m.sp := by
  unfold sp
  rw [setReg_reg, if_neg h.symm]

def push (m : Processor) (v : UInt32) : Processor :=
  let m := m.setReg .esp (m.reg .esp - 4)
  { m with mem := m.mem.setWord m.sp v }

/-- The word on top of the stack. -/
def top (m : Processor) : UInt32 := m.mem.word m.sp

def drop (m : Processor) (n : UInt32) : Processor := m.setReg .esp (m.reg .esp + n)

def exec (m : Processor) : Instr → Processor
  | .pushl r => m.push (m.reg r)
  | .popl r => (m.drop 4).setReg r m.top
  | .movSym v dst => m.setReg dst v
  | .movFrom disp base dst => m.setReg dst (m.mem.word (m.reg base + disp).toNat)
  | .movFromIndexed base index dst =>
      m.setReg dst (m.mem.word (m.reg base + m.reg index).toNat)
  | .movToIndexed src base index =>
      { m with mem := m.mem.setWord (m.reg base + m.reg index).toNat (m.reg src) }
  | .addl n r => m.setReg r (m.reg r + n)
  | .call target next => { m.push next with eip := target }
  | .ret => { m.drop 4 with eip := m.top }

/-- Run code from its first instruction on. -/
def run (m : Processor) (code : List Instr) : Processor := code.foldl exec m

@[simp] theorem run_nil : m.run [] = m := rfl

@[simp] theorem run_cons {i : Instr} {code : List Instr} :
    m.run (i :: code) = (m.exec i).run code := rfl

theorem run_append {code code' : List Instr} : m.run (code ++ code') = (m.run code).run code' :=
  List.foldl_append

/-! ### The stack -/

theorem push_sp (h : 4 ≤ m.sp) : (m.push v).sp = m.sp - 4 := by
  have hle : (4 : UInt32) ≤ m.reg .esp := UInt32.le_iff_toNat_le.mpr h
  show ((m.setReg .esp (m.reg .esp - 4)).reg .esp).toNat = _
  rw [setReg_reg, if_pos rfl, UInt32.toNat_sub_of_le _ _ hle]
  rfl

theorem push_reg (h : r ≠ .esp) : (m.push v).reg r = m.reg r := by
  show (m.setReg .esp (m.reg .esp - 4)).reg r = _
  rw [setReg_reg, if_neg h]

theorem push_mem (h : 4 ≤ m.sp) : (m.push v).mem = m.mem.setWord (m.sp - 4) v := by
  rw [← push_sp (v := v) h]
  rfl

@[simp] theorem push_eip : (m.push v).eip = m.eip := rfl

theorem drop_sp {n : UInt32} (h : m.sp + n.toNat < 2 ^ 32) : (m.drop n).sp = m.sp + n.toNat := by
  show ((m.setReg .esp (m.reg .esp + n)).reg .esp).toNat = _
  rw [setReg_reg, if_pos rfl, UInt32.toNat_add]
  exact Nat.mod_eq_of_lt h

theorem drop_reg {n : UInt32} (h : r ≠ .esp) : (m.drop n).reg r = m.reg r := by
  show (m.setReg .esp (m.reg .esp + n)).reg r = _
  rw [setReg_reg, if_neg h]

@[simp] theorem drop_mem {n : UInt32} : (m.drop n).mem = m.mem := rfl

/-- What `n` words pushed on the stack of `m` leave of it. -/
structure Pushed (m m' : Processor) (ws : List UInt32) : Prop where
  sp : m'.sp + 4 * ws.length = m.sp
  reg : ∀ r, r ≠ .esp → m'.reg r = m.reg r
  eip : m'.eip = m.eip
  words : m'.mem.Words m'.sp ws
  outside : ∀ x, x < m'.sp ∨ m.sp ≤ x → m'.mem x = m.mem x

theorem pushed_push (h : 4 ≤ m.sp) : Pushed m (m.push v) [v] := by
  have hsp := push_sp (v := v) h
  refine ⟨?_, fun r hr => push_reg hr, rfl, ?_, fun x hx => ?_⟩
  · rw [hsp, List.length_singleton]
    omega
  · rw [push_mem h, hsp]
    exact ⟨Mem.word_setWord, trivial⟩
  · rw [push_mem h]
    exact Mem.setWord_of_outside (by omega)

theorem Pushed.trans {m₁ m₂ : Processor} {ws vs : List UInt32} (h₁ : Pushed m m₁ ws)
    (h₂ : Pushed m₁ m₂ vs) : Pushed m m₂ (vs ++ ws) := by
  have hs₁ := h₁.sp
  have hs₂ := h₂.sp
  refine ⟨?_, fun r hr => (h₂.reg r hr).trans (h₁.reg r hr), h₂.eip.trans h₁.eip, ?_,
    fun x hx => ?_⟩
  · rw [List.length_append]
    omega
  · rw [Mem.words_append, hs₂]
    exact ⟨h₂.words, h₁.words.congr fun x hl _ => h₂.outside x (Or.inr hl)⟩
  · rw [h₂.outside x (by omega), h₁.outside x (by omega)]

/-- Pushing registers. -/
theorem run_pushl {rs : List Reg} (hesp : .esp ∉ rs) (hroom : 4 * rs.length ≤ m.sp) :
    Pushed m (m.run (rs.map .pushl)) (rs.reverse.map m.reg) := by
  induction rs generalizing m with
  | nil => exact ⟨rfl, fun _ _ => rfl, rfl, trivial, fun _ _ => rfl⟩
  | cons r rs ih =>
      rw [List.length_cons] at hroom
      have hr : r ≠ .esp := fun h => hesp (by simp [h])
      have hrs : .esp ∉ rs := fun h => hesp (List.mem_cons_of_mem _ h)
      have hpush : Pushed m (m.push (m.reg r)) [m.reg r] := pushed_push (by omega)
      have hsp : (m.push (m.reg r)).sp = m.sp - 4 := push_sp (by omega)
      have hrest := ih (m := m.push (m.reg r)) hrs (by omega)
      have hregs : rs.reverse.map (m.push (m.reg r)).reg = rs.reverse.map m.reg := by
        refine List.map_congr_left fun r' hr' => push_reg fun heq => hrs ?_
        rw [← heq]
        exact List.mem_reverse.mp hr'
      rw [hregs] at hrest
      rw [List.reverse_cons, List.map_append]
      exact hpush.trans hrest

/-- Popping into distinct registers. -/
theorem run_popl {rs : List Reg} {f : Reg → UInt32} (hesp : .esp ∉ rs) (hnodup : rs.Nodup)
    (hroom : m.sp + 4 * rs.length < 2 ^ 32) (hwords : m.mem.Words m.sp (rs.map f)) :
    (m.run (rs.map .popl)).sp = m.sp + 4 * rs.length ∧
      (m.run (rs.map .popl)).mem = m.mem ∧ (m.run (rs.map .popl)).eip = m.eip ∧
      (∀ r ∈ rs, (m.run (rs.map .popl)).reg r = f r) ∧
      ∀ r, r ∉ rs → r ≠ .esp → (m.run (rs.map .popl)).reg r = m.reg r := by
  induction rs generalizing m with
  | nil => simp
  | cons r rs ih =>
      rw [List.length_cons] at hroom
      obtain ⟨htop, hrest⟩ := Mem.words_cons.mp hwords
      obtain ⟨hnot, hnodup⟩ := List.nodup_cons.mp hnodup
      have hr : r ≠ .esp := fun h => hesp (by simp [h])
      have hrs : .esp ∉ rs := fun h => hesp (List.mem_cons_of_mem _ h)
      have hsp : (m.exec (.popl r)).sp = m.sp + 4 :=
        (setReg_sp hr).trans (drop_sp (n := 4) (by show m.sp + 4 < _; omega))
      have hpopped : (m.exec (.popl r)).reg r = f r := by
        show ((m.drop 4).setReg r m.top).reg r = _
        rw [setReg_reg, if_pos rfl]
        exact htop
      have hother : ∀ r', r' ≠ r → r' ≠ .esp → (m.exec (.popl r)).reg r' = m.reg r' := by
        intro r' hr' hne
        show ((m.drop 4).setReg r m.top).reg r' = _
        rw [setReg_reg, if_neg hr', drop_reg hne]
      obtain ⟨hs, hm, he, hin, hout⟩ := ih (m := m.exec (.popl r)) hrs hnodup (by omega)
        (by rw [hsp]; exact hrest)
      rw [List.map_cons, run_cons, List.length_cons]
      refine ⟨by rw [hs, hsp]; omega, hm, he, fun r' hr' => ?_, fun r' hr' hne => ?_⟩
      · rcases List.mem_cons.mp hr' with rfl | hr'
        · rw [hout r' hnot hr, hpopped]
        · exact hin r' hr'
      · rw [List.mem_cons, not_or] at hr'
        rw [hout r' hr'.2 hne, hother r' hr'.1 hne]

end Processor

end OsTools

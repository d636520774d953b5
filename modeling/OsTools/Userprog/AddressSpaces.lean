import OsTools.Threads.Scheduler
import OsTools.Vm.Vaddr
/-!
# OsTools.Userprog.AddressSpaces

Which page directory is active while processes start and exit: `start_process`, the
beginning of `load`, `process_exit`, `process_activate` and `pagedir_activate`, with the
scheduler, which may switch to another thread between any two statements.

The instructions of a process are those of its thread that use its control block (PCB) or
its page directory. Addresses of blocks and pages that have been freed may be given out again.
`none` is the page directory of the kernel, a null pointer, or a step that would fault.

## Proof shape

The invariant gives each thread a phase of its process's code, and says in terms of the
phase what the thread's PCB and page directory are (`Owned`) and which directories may be
active while it runs (`Phase.active`). The PCB and the directory of a thread are its own: no
two threads share one, so that a step of the current thread is a change to what the others
do not refer to (`Effect.inv`).

That splits the proof in two. `Inv.exec` goes over the instructions, each of which has an
`Effect`; the four kinds of effect are one lemma each. `Inv.op` goes over the operations of
the scheduler, where the thread that is switched to calls `process_activate` before it
returns to its own code: it is there, and only there, that a directory becomes active for a
thread that has been away. The order of the statements in `process_exit` (the pointer in the
PCB is cleared, the kernel's directory is activated, and then the directory is destroyed) is
what `Phase.active` needs: with the first two the other way round, a switch between them
would activate a directory that is about to go.
-/

namespace OsTools.Userprog

open OsTools.Threads
open OsTools.Vm (PGSIZE)

/-- Where a thread is in the code of its process, with its local variables. -/
inductive Phase
  /-- No process: `t->pcb` is null. -/
  | kernel
  /-- `new_pcb` has been allocated. -/
  | allocated (pcb : Nat)
  /-- Its `pagedir` is null. -/
  | cleared (pcb : Nat)
  /-- `t->pcb` is set; also the first thread after `userprog_init`. -/
  | attached (pcb : Nat)
  /-- `pagedir_create` is about to return. -/
  | created (pcb pd : Nat)
  | stored (pcb pd : Nat)
  /-- The page directory is active: the rest of `load`, and then user code. -/
  | user (pcb pd : Nat)
  /-- `process_exit`, with `cur->pcb->pagedir` null. -/
  | exiting (pcb pd : Nat)
  /-- `pagedir_activate(NULL)` has been called. -/
  | based (pcb pd : Nat)
  /-- Inside `pagedir_destroy`. -/
  | destroying (pcb pd : Nat)
  | destroyed (pcb : Nat)
  /-- `t->pcb` is null again; after a failed `load` there is a page directory left over. -/
  | detached (pcb : Nat) (pd : Option Nat)
  /-- About to call `thread_exit`. -/
  | over (pd : Option Nat)
  deriving DecidableEq

/-- What `malloc` finds in a new block is an argument of it. -/
inductive Instr
  /-- `new_pcb = malloc(sizeof(struct process))`. -/
  | malloc (pcb : Nat) (garbage : Option Nat)
  /-- `calloc` in `userprog_init`. -/
  | calloc (pcb : Nat)
  /-- `new_pcb->pagedir = NULL`. -/
  | clear
  /-- `t->pcb = new_pcb`. -/
  | attach
  /-- `pagedir_create`. -/
  | create (pd : Nat)
  /-- `t->pcb->pagedir = ...`. -/
  | store
  /-- `process_activate`. -/
  | activate
  /-- `cur->pcb->pagedir = NULL`. -/
  | nullify
  /-- `pagedir_activate(NULL)`. -/
  | activateBase
  /-- `pagedir_destroy` frees its first page. -/
  | condemn
  /-- `palloc_free_page(pd)` in `pagedir_destroy`. -/
  | destroy
  /-- `t->pcb = NULL`. -/
  | detach
  /-- `free(pcb_to_free)`. -/
  | free
  deriving DecidableEq

/-- The order of the statements. -/
def Phase.next : Phase → Instr → Option Phase
  | .kernel, .malloc pcb _ => some (.allocated pcb)
  | .kernel, .calloc pcb => some (.cleared pcb)
  | .allocated pcb, .clear => some (.cleared pcb)
  | .cleared pcb, .attach => some (.attached pcb)
  | .attached pcb, .create pd => some (.created pcb pd)
  | .created pcb pd, .store => some (.stored pcb pd)
  | .stored pcb pd, .activate => some (.user pcb pd)
  | .user pcb pd, .nullify => some (.exiting pcb pd)
  | .user pcb pd, .detach => some (.detached pcb (some pd))
  | .exiting pcb pd, .activateBase => some (.based pcb pd)
  | .based pcb pd, .condemn => some (.destroying pcb pd)
  | .destroying pcb _, .destroy => some (.destroyed pcb)
  | .destroyed pcb, .detach => some (.detached pcb none)
  | .attached pcb, .detach => some (.detached pcb none)
  | .detached _ pd, .free => some (.over pd)
  | _, _ => none

/-- The PCB that the code has a pointer to. -/
def Phase.pcb : Phase → Option Nat
  | .kernel | .over _ => none
  | .allocated a | .cleared a | .attached a | .created a _ | .stored a _ | .user a _
  | .exiting a _ | .based a _ | .destroying a _ | .destroyed a | .detached a _ => some a

/-- The page directory. -/
def Phase.dir : Phase → Option Nat
  | .kernel | .allocated _ | .cleared _ | .attached _ | .destroyed _ => none
  | .created _ d | .stored _ d | .user _ d | .exiting _ d | .based _ d | .destroying _ d => some d
  | .detached _ d | .over d => d

/-- Where `thread_exit` may be called. -/
def Phase.mayExit : Phase → Bool
  | .kernel | .attached _ | .over _ => true
  | _ => false

/-- `pagedir_destroy` has not begun, or it has. -/
inductive DirState
  | intact
  | condemned
  deriving DecidableEq

structure Spaces where
  sched : Sched
  phase : Nat → Phase
  /-- `t->pcb`. -/
  pcb : Nat → Option Nat
  /-- The member `pagedir` of the PCBs that are allocated. -/
  heap : Nat → Option (Option Nat)
  /-- The page directories that are allocated. -/
  dirs : Nat → Option DirState
  /-- The active page directory. -/
  cr3 : Option Nat
  /-- The kernel stack in the task-state segment. -/
  esp0 : Nat

namespace Spaces

def current (s : Spaces) : Nat := s.sched.current

/-- `pagedir_activate`. -/
def pagedirActivate (s : Spaces) (pd : Option Nat) : Spaces := { s with cr3 := pd }

def tssUpdate (s : Spaces) : Spaces := { s with esp0 := s.current + PGSIZE }

/-- `process_activate`. -/
def processActivate (s : Spaces) : Option Spaces := do
  let pd ← (s.pcb s.current).elim (some none) s.heap
  some (s.pagedirActivate pd).tssUpdate

/-- `pcb->pagedir = pd`. -/
def writePagedir (s : Spaces) (pcb : Nat) (pd : Option Nat) : Option Spaces :=
  if (s.heap pcb).isSome then some { s with heap := Function.update s.heap pcb (some pd) } else none

def setPcb (s : Spaces) (pcb : Option Nat) : Spaces :=
  { s with pcb := Function.update s.pcb s.current pcb }

def setDir (s : Spaces) (pd : Nat) (d : Option DirState) : Spaces :=
  { s with dirs := Function.update s.dirs pd d }

/-- An instruction of the current thread. -/
def exec (s : Spaces) : Instr → Option Spaces
  | .malloc a garbage =>
      if s.heap a = none then some { s with heap := Function.update s.heap a (some garbage) }
      else none
  | .calloc a =>
      if s.heap a = none then some { s with heap := Function.update s.heap a (some none) }
      else none
  | .clear => do s.writePagedir (← (s.phase s.current).pcb) none
  | .attach => do some (s.setPcb (some (← (s.phase s.current).pcb)))
  | .create pd => if s.dirs pd = none then some (s.setDir pd (some .intact)) else none
  | .store => do s.writePagedir (← s.pcb s.current) (s.phase s.current).dir
  | .activate => s.processActivate
  | .nullify => do s.writePagedir (← s.pcb s.current) none
  | .activateBase => some (s.pagedirActivate none)
  | .condemn => do
      let pd ← (s.phase s.current).dir
      if s.dirs pd = some .intact then some (s.setDir pd (some .condemned)) else none
  | .destroy => do
      let pd ← (s.phase s.current).dir
      if s.dirs pd = some .condemned then some (s.setDir pd none) else none
  | .detach => some (s.setPcb none)
  | .free => do
      let a ← (s.phase s.current).pcb
      if (s.heap a).isSome then some { s with heap := Function.update s.heap a none } else none

def run (s : Spaces) (i : Instr) : Option Spaces := do
  let p ← (s.phase s.current).next i
  let s' ← s.exec i
  some { s' with phase := Function.update s.phase s.current p }

/-- The page of the thread that an operation creates. -/
def newThread : Sched.Op → Option Nat
  | .create page => page
  | .createBegin page => some page
  | _ => none

/-- `init_thread` clears the page of a new thread. -/
def initThread (s : Spaces) : Option Nat → Spaces
  | none => s
  | some t =>
      { s with pcb := Function.update s.pcb t none, phase := Function.update s.phase t .kernel }

/-- An operation of the scheduler; `thread_switch_tail` calls `process_activate`. -/
def op (s : Spaces) (o : Sched.Op) : Option Spaces :=
  if o = .exit ∧ (s.phase s.current).mayExit = false then none
  else do
    let sched ← s.sched.step o
    let s' := { s with sched }.initThread (newThread o)
    if o.schedules then s'.processActivate else some s'

inductive Act
  | op (o : Sched.Op)
  | run (i : Instr)
  deriving DecidableEq

def step (s : Spaces) : Act → Option Spaces
  | .op o => s.op o
  | .run i => s.run i

def Step (s : Spaces) (a : Act) (s' : Spaces) : Prop := s.step a = some s'

/-- After `tss_init`, on the page `main`. -/
def boot (main : Nat) : Spaces where
  sched := Sched.threadInit main
  phase _ := .kernel
  pcb _ := none
  heap _ := none
  dirs _ := none
  cr3 := none
  esp0 := main + PGSIZE

end Spaces

/-! ### What holds in each phase -/

/-- The instructions that come next. -/
inductive Phase.Next : Phase → Instr → Phase → Prop
  | malloc (a : Nat) (garbage : Option Nat) : Next .kernel (.malloc a garbage) (.allocated a)
  | calloc (a : Nat) : Next .kernel (.calloc a) (.cleared a)
  | clear (a : Nat) : Next (.allocated a) .clear (.cleared a)
  | attach (a : Nat) : Next (.cleared a) .attach (.attached a)
  | create (a d : Nat) : Next (.attached a) (.create d) (.created a d)
  | store (a d : Nat) : Next (.created a d) .store (.stored a d)
  | activate (a d : Nat) : Next (.stored a d) .activate (.user a d)
  | nullify (a d : Nat) : Next (.user a d) .nullify (.exiting a d)
  | fail (a d : Nat) : Next (.user a d) .detach (.detached a (some d))
  | activateBase (a d : Nat) : Next (.exiting a d) .activateBase (.based a d)
  | condemn (a d : Nat) : Next (.based a d) .condemn (.destroying a d)
  | destroy (a d : Nat) : Next (.destroying a d) .destroy (.destroyed a)
  | exit (a : Nat) : Next (.destroyed a) .detach (.detached a none)
  | detach (a : Nat) : Next (.attached a) .detach (.detached a none)
  | free (a : Nat) (d : Option Nat) : Next (.detached a d) .free (.over d)

theorem Phase.next_of_eq {p p' : Phase} {i : Instr} (h : p.next i = some p') : Next p i p' := by
  unfold Phase.next at h
  split at h <;> first | (obtain rfl := Option.some.inj h; constructor) | exact absurd h (by simp)

/-- The value of `t->pcb`. -/
def Phase.pcbVar : Phase → Option Nat
  | .kernel | .allocated _ | .cleared _ | .detached _ _ | .over _ => none
  | .attached a | .created a _ | .stored a _ | .user a _ | .exiting a _ | .based a _
  | .destroying a _ | .destroyed a => some a

/-- The page directory in the PCB, where it matters. -/
def Phase.pagedir : Phase → Option (Option Nat)
  | .kernel | .allocated _ | .detached _ _ | .over _ => none
  | .cleared _ | .attached _ | .created _ _ | .exiting _ _ | .based _ _ | .destroying _ _
  | .destroyed _ => some none
  | .stored _ d | .user _ d => some (some d)

def Phase.dirState : Phase → DirState
  | .destroying _ _ => .condemned
  | _ => .intact

/-- The page directories that may be active. -/
def Phase.active : Phase → List (Option Nat)
  | .stored _ d | .exiting _ d => [none, some d]
  | .user _ d => [some d]
  | .detached _ d | .over d => [none, d]
  | _ => [none]

/-- What `process_activate` finds is one of them. -/
theorem Phase.active_of_pcbVar (p : Phase) :
    (p.pcbVar = none ∧ none ∈ p.active) ∨
      ∃ a pd, p.pcbVar = some a ∧ p.pcb = some a ∧ p.pagedir = some pd ∧ pd ∈ p.active := by
  cases p <;> simp [pcbVar, active, pcb, pagedir]

/-- Where a page directory is active, it is the thread's and intact. -/
theorem Phase.intact_of_active {p : Phase} {d : Nat} (h : some d ∈ p.active) :
    p.dir = some d ∧ p.dirState = .intact := by
  cases p <;> simp_all [active, dir, dirState]

namespace Spaces

variable {s s' : Spaces} {t : Nat} {p p' : Phase} {i : Instr} {o : Sched.Op}

structure Holds (s : Spaces) (t : Nat) (p : Phase) : Prop where
  pcb : s.pcb t = p.pcbVar
  pagedir : ∀ a, p.pcb = some a → ∃ v, s.heap a = some v ∧ ∀ w, p.pagedir = some w → v = w
  dir : ∀ d, p.dir = some d → s.dirs d = some p.dirState

/-- Each thread's PCB and page directory are as in its phase, and its own. -/
structure Owned (s : Spaces) : Prop where
  holds : ∀ t, Holds s t (s.phase t)
  pcbs : ∀ t u a, t ≠ u → (s.phase t).pcb = some a → (s.phase u).pcb ≠ some a
  dirs : ∀ t u d, t ≠ u → (s.phase t).dir = some d → (s.phase u).dir ≠ some d

structure Inv (s : Spaces) : Prop extends Owned s where
  sched : s.sched.Inv
  active : s.cr3 ∈ (s.phase s.current).active
  tss : s.esp0 = s.current + PGSIZE

theorem boot_inv (main : Nat) : Inv (boot main) where
  holds _ := ⟨rfl, fun _ h => absurd h (by simp [Phase.pcb, boot]),
    fun _ h => absurd h (by simp [Phase.dir, boot])⟩
  pcbs _ _ _ _ h := absurd h (by simp [Phase.pcb, boot])
  dirs _ _ _ _ h := absurd h (by simp [Phase.dir, boot])
  sched := Sched.threadInit_inv main
  active := List.mem_singleton_self none
  tss := rfl

theorem Holds.heap_ne (h : Holds s t p) {a : Nat} (ha : p.pcb = some a) : s.heap a ≠ none := by
  obtain ⟨v, hv, _⟩ := h.pagedir a ha
  rw [hv]
  exact Option.some_ne_none v

theorem Holds.dirs_ne (h : Holds s t p) {d : Nat} (hd : p.dir = some d) : s.dirs d ≠ none := by
  rw [h.dir d hd]
  exact Option.some_ne_none _

/-- What no two threads share is still not shared after one of them goes on. -/
theorem unshared_update {f : Phase → Option Nat} {phase : Nat → Phase} {c : Nat}
    (h : ∀ t u a, t ≠ u → f (phase t) = some a → f (phase u) ≠ some a)
    (hnew : ∀ u a, u ≠ c → f p' = some a → f (phase u) ≠ some a) (t u a : Nat) (htu : t ≠ u)
    (ht : f (Function.update phase c p' t) = some a) :
    f (Function.update phase c p' u) ≠ some a := by
  intro hu
  by_cases htc : t = c
  · subst htc
    rw [Function.update_self] at ht
    rw [Function.update_of_ne htu.symm] at hu
    exact hnew u a htu.symm ht hu
  · rw [Function.update_of_ne htc] at ht
    by_cases huc : u = c
    · subst huc
      rw [Function.update_self] at hu
      exact hnew t a htc hu ht
    · rw [Function.update_of_ne huc] at hu
      exact h t u a htu ht hu

/-! ### One instruction -/

/-- What an instruction of the current thread changes, on the way from the phase `p` to `p'`. -/
structure Effect (s s' : Spaces) (p p' : Phase) : Prop where
  sched : s'.sched = s.sched
  phase : s'.phase = s.phase
  others : ∀ u, u ≠ s.current → s'.pcb u = s.pcb u
  heap : ∀ a, p.pcb ≠ some a → s.heap a ≠ none → s'.heap a = s.heap a
  dirs : ∀ d, p.dir ≠ some d → s.dirs d ≠ none → s'.dirs d = s.dirs d
  newPcb : ∀ a, p'.pcb = some a → p.pcb = some a ∨ s.heap a = none
  newDir : ∀ d, p'.dir = some d → p.dir = some d ∨ s.dirs d = none
  holds : Holds s' s.current p'
  active : s'.cr3 ∈ p'.active
  tss : s'.esp0 = s.current + PGSIZE

/-- **Other threads** do not notice. -/
theorem Effect.inv (e : Effect s s' (s.phase s.current) p') (h : Inv s) :
    Inv { s' with phase := Function.update s.phase s.current p' } := by
  have hcurrent : s'.current = s.current := congrArg Sched.current e.sched
  have hself : Function.update s.phase s.current p' s.current = p' := Function.update_self _ _ _
  have hpcb : ∀ u a, u ≠ s.current → p'.pcb = some a → (s.phase u).pcb ≠ some a := by
    intro u a hu ha hua
    rcases e.newPcb a ha with hp | hfree
    · exact h.pcbs _ u a hu.symm hp hua
    · exact (h.holds u).heap_ne hua hfree
  have hdir : ∀ u d, u ≠ s.current → p'.dir = some d → (s.phase u).dir ≠ some d := by
    intro u d hu hd hud
    rcases e.newDir d hd with hp | hfree
    · exact h.dirs _ u d hu.symm hp hud
    · exact (h.holds u).dirs_ne hud hfree
  refine ⟨⟨fun t => ?_, unshared_update h.pcbs hpcb, unshared_update h.dirs hdir⟩, ?_, ?_, ?_⟩
  · show Holds _ t (Function.update s.phase s.current p' t)
    by_cases ht : t = s.current
    · subst ht
      rw [hself]
      exact ⟨e.holds.pcb, e.holds.pagedir, e.holds.dir⟩
    · rw [Function.update_of_ne ht]
      have hold := h.holds t
      refine ⟨(e.others t ht).trans hold.pcb, fun a ha => ?_, fun d hd => ?_⟩
      · obtain ⟨v, hv, hw⟩ := hold.pagedir a ha
        exact ⟨v, (e.heap a (h.pcbs t _ a ht ha) (hold.heap_ne ha)).trans hv, hw⟩
      · exact (e.dirs d (h.dirs t _ d ht hd) (hold.dirs_ne hd)).trans (hold.dir d hd)
  · show Sched.Inv s'.sched
    rw [e.sched]
    exact h.sched
  · show s'.cr3 ∈ (Function.update s.phase s.current p' s'.current).active
    rw [hcurrent, hself]
    exact e.active
  · show s'.esp0 = s'.current + PGSIZE
    rw [hcurrent]
    exact e.tss

/-- A write to the PCB, or to a block that becomes it. -/
theorem Inv.effect_heap (h : Inv s) (hp : s.phase s.current = p) {a : Nat}
    (v : Option (Option Nat)) (ha : p.pcb = some a ∨ s.heap a = none)
    (hpcb : ∀ b, p'.pcb = some b → b = a ∧ ∃ w, v = some w ∧ ∀ w', p'.pagedir = some w' → w = w')
    (hdir : p'.dir = p.dir) (hstate : p'.dirState = p.dirState) (hvar : p'.pcbVar = p.pcbVar)
    (hactive : p.active ⊆ p'.active) :
    Effect s { s with heap := Function.update s.heap a v } p p' := by
  have hold := h.holds s.current
  have hact := h.active
  rw [hp] at hold hact
  refine ⟨rfl, rfl, fun _ _ => rfl, fun b hb hbs => ?_, fun _ _ _ => rfl, fun b hb => ?_,
    fun d hd => .inl (hdir ▸ hd), ⟨?_, fun b hb => ?_, fun d hd => ?_⟩, hactive hact, h.tss⟩
  · refine Function.update_of_ne (fun hba => ?_) _ _
    subst hba
    exact ha.elim hb hbs
  · rw [(hpcb b hb).1]
    exact ha
  · rw [hvar]
    exact hold.pcb
  · obtain ⟨rfl, w, rfl, hw⟩ := hpcb b hb
    exact ⟨w, Function.update_self _ _ _, hw⟩
  · rw [hstate]
    exact hold.dir d (hdir ▸ hd)

/-- An assignment to `t->pcb`. -/
theorem Inv.effect_pcb (h : Inv s) (hp : s.phase s.current = p) (v : Option Nat)
    (hvar : p'.pcbVar = v) (hpcb : p'.pcb = p.pcb)
    (hpagedir : ∀ w, p'.pagedir = some w → p.pagedir = some w) (hdir : p'.dir = p.dir)
    (hstate : p'.dirState = p.dirState) (hactive : p.active ⊆ p'.active) :
    Effect s (s.setPcb v) p p' := by
  have hold := h.holds s.current
  have hact := h.active
  rw [hp] at hold hact
  refine ⟨rfl, rfl, fun u hu => Function.update_of_ne hu _ _, fun _ _ _ => rfl, fun _ _ _ => rfl,
    fun b hb => .inl (hpcb ▸ hb), fun d hd => .inl (hdir ▸ hd),
    ⟨?_, fun b hb => ?_, fun d hd => ?_⟩, hactive hact, h.tss⟩
  · rw [hvar]
    exact Function.update_self _ _ _
  · obtain ⟨w, hw, hw'⟩ := hold.pagedir b (hpcb ▸ hb)
    exact ⟨w, hw, fun w' h' => hw' w' (hpagedir w' h')⟩
  · rw [hstate]
    exact hold.dir d (hdir ▸ hd)

/-- Page directories that are taken, condemned or freed. -/
theorem Inv.effect_dir (h : Inv s) (hp : s.phase s.current = p) {d : Nat} (v : Option DirState)
    (hd : p.dir = some d ∨ s.dirs d = none)
    (hdir : ∀ e, p'.dir = some e → e = d ∧ v = some p'.dirState) (hpcb : p'.pcb = p.pcb)
    (hvar : p'.pcbVar = p.pcbVar) (hpagedir : p'.pagedir = p.pagedir)
    (hactive : p.active ⊆ p'.active) : Effect s (s.setDir d v) p p' := by
  have hold := h.holds s.current
  have hact := h.active
  rw [hp] at hold hact
  refine ⟨rfl, rfl, fun _ _ => rfl, fun _ _ _ => rfl, fun e he hes => ?_,
    fun b hb => .inl (hpcb ▸ hb), fun e he => ?_, ⟨?_, fun b hb => ?_, fun e he => ?_⟩,
    hactive hact, h.tss⟩
  · refine Function.update_of_ne (fun hed => ?_) _ _
    subst hed
    exact hd.elim he hes
  · rw [(hdir e he).1]
    exact hd
  · rw [hvar]
    exact hold.pcb
  · obtain ⟨w, hw, hw'⟩ := hold.pagedir b (hpcb ▸ hb)
    exact ⟨w, hw, fun w' h' => hw' w' (hpagedir ▸ h')⟩
  · obtain ⟨rfl, rfl⟩ := hdir e he
    exact Function.update_self _ _ _

/-- Another page directory becomes active. -/
theorem Inv.effect_active (h : Inv s) (hp : s.phase s.current = p) (p' : Phase) {cr3 : Option Nat}
    (hcr3 : cr3 ∈ p'.active) (hdir : p'.dir = p.dir) (hstate : p'.dirState = p.dirState)
    (hpcb : p'.pcb = p.pcb) (hvar : p'.pcbVar = p.pcbVar) (hpagedir : p'.pagedir = p.pagedir)
    {esp0 : Nat} (htss : esp0 = s.current + PGSIZE) :
    Effect s { s with cr3, esp0 } p p' := by
  have hold := h.holds s.current
  rw [hp] at hold
  refine ⟨rfl, rfl, fun _ _ => rfl, fun _ _ _ => rfl, fun _ _ _ => rfl,
    fun b hb => .inl (hpcb ▸ hb), fun d hd => .inl (hdir ▸ hd),
    ⟨?_, fun b hb => ?_, fun d hd => ?_⟩, hcr3, htss⟩
  · rw [hvar]
    exact hold.pcb
  · obtain ⟨w, hw, hw'⟩ := hold.pagedir b (hpcb ▸ hb)
    exact ⟨w, hw, fun w' h' => hw' w' (hpagedir ▸ h')⟩
  · rw [hstate]
    exact hold.dir d (hdir ▸ hd)

/-- The allocators give out what is free. -/
def Granted (s : Spaces) : Instr → Prop
  | .malloc a _ | .calloc a => s.heap a = none
  | .create d => s.dirs d = none
  | _ => True

/-- No instruction faults, and each one has its effect. By the phase and the instruction: what
the instruction dereferences is what the phase says the thread owns. -/
theorem Inv.exec (h : Inv s) (hn : Phase.Next (s.phase s.current) i p') (hg : Granted s i) :
    ∃ s', s.exec i = some s' ∧ Effect s s' (s.phase s.current) p' := by
  have hold := h.holds s.current
  generalize hp : s.phase s.current = p at hn hold
  cases hn with
  | malloc a garbage =>
      refine ⟨_, if_pos hg, h.effect_heap hp _ (.inr hg) (fun b hb => ?_) rfl rfl rfl ?_⟩
      · exact ⟨(Option.some.inj hb).symm, garbage, rfl,
          fun w hw => absurd hw (by simp [Phase.pagedir])⟩
      · exact List.Subset.refl _
  | calloc a =>
      refine ⟨_, if_pos hg, h.effect_heap hp _ (.inr hg) (fun b hb => ?_) rfl rfl rfl ?_⟩
      · exact ⟨(Option.some.inj hb).symm, none, rfl, fun w hw => Option.some.inj hw⟩
      · exact List.Subset.refl _
  | clear a =>
      have hne := Option.isSome_iff_ne_none.mpr (hold.heap_ne (a := a) rfl)
      refine ⟨{ s with heap := Function.update s.heap a (some none) }, ?_,
        h.effect_heap hp _ (.inl rfl) (fun b hb => ?_) rfl rfl rfl ?_⟩
      · show Option.bind (s.phase s.current).pcb _ = _
        rw [hp]
        exact if_pos hne
      · exact ⟨(Option.some.inj hb).symm, none, rfl, fun w hw => Option.some.inj hw⟩
      · exact List.Subset.refl _
  | attach a =>
      refine ⟨s.setPcb (some a), ?_,
        h.effect_pcb hp _ rfl rfl (fun _ hw => hw) rfl rfl (List.Subset.refl _)⟩
      show Option.bind (s.phase s.current).pcb _ = _
      rw [hp]
      rfl
  | create a d =>
      refine ⟨_, if_pos hg, h.effect_dir hp _ (.inr hg) (fun e he => ?_) rfl rfl rfl ?_⟩
      · exact ⟨(Option.some.inj he).symm, rfl⟩
      · exact List.Subset.refl _
  | store a d =>
      have hne := Option.isSome_iff_ne_none.mpr (hold.heap_ne (a := a) rfl)
      refine ⟨{ s with heap := Function.update s.heap a (some (some d)) }, ?_,
        h.effect_heap hp _ (.inl rfl) (fun b hb => ?_) rfl rfl rfl ?_⟩
      · show Option.bind (s.pcb s.current) _ = _
        rw [hold.pcb, hp]
        exact if_pos hne
      · exact ⟨(Option.some.inj hb).symm, some d, rfl, fun w hw => Option.some.inj hw⟩
      · exact List.cons_subset_cons none (List.nil_subset _)
  | activate a d =>
      obtain ⟨v, hv, hw⟩ := hold.pagedir a rfl
      obtain rfl := hw _ rfl
      have heffect : Effect s { s with cr3 := some d, esp0 := s.current + PGSIZE } (.stored a d)
          (.user a d) :=
        h.effect_active hp (.user a d) (List.mem_singleton_self _) rfl rfl rfl rfl rfl rfl
      refine ⟨_, ?_, heffect⟩
      show Option.bind ((s.pcb s.current).elim (some none) s.heap) _ = _
      rw [hold.pcb]
      show Option.bind (s.heap a) _ = _
      rw [hv]
      rfl
  | nullify a d =>
      have hne := Option.isSome_iff_ne_none.mpr (hold.heap_ne (a := a) rfl)
      refine ⟨{ s with heap := Function.update s.heap a (some none) }, ?_,
        h.effect_heap hp _ (.inl rfl) (fun b hb => ?_) rfl rfl rfl ?_⟩
      · show Option.bind (s.pcb s.current) _ = _
        rw [hold.pcb]
        exact if_pos hne
      · exact ⟨(Option.some.inj hb).symm, none, rfl, fun w hw => Option.some.inj hw⟩
      · exact List.subset_cons_self ..
  | fail a d =>
      exact ⟨_, rfl, h.effect_pcb hp _ rfl rfl (fun w hw => absurd hw (by simp [Phase.pagedir])) rfl
        rfl (List.subset_cons_self ..)⟩
  | activateBase a d =>
      have heffect : Effect s { s with cr3 := none } (.exiting a d) (.based a d) :=
        h.effect_active hp (.based a d) (List.mem_singleton_self _) rfl rfl rfl rfl rfl h.tss
      exact ⟨_, rfl, heffect⟩
  | condemn a d =>
      have hdir : s.dirs d = some .intact := hold.dir d rfl
      refine ⟨s.setDir d (some .condemned), ?_,
        h.effect_dir hp _ (.inl rfl) (fun e he => ?_) rfl rfl rfl (List.Subset.refl _)⟩
      · show Option.bind (s.phase s.current).dir _ = _
        rw [hp]
        exact if_pos hdir
      · exact ⟨(Option.some.inj he).symm, rfl⟩
  | destroy a d =>
      have hdir : s.dirs d = some .condemned := hold.dir d rfl
      refine ⟨s.setDir d none, ?_,
        h.effect_dir hp _ (.inl rfl) (fun e he => ?_) rfl rfl rfl (List.Subset.refl _)⟩
      · show Option.bind (s.phase s.current).dir _ = _
        rw [hp]
        exact if_pos hdir
      · exact absurd he (by simp [Phase.dir])
  | exit a =>
      exact ⟨_, rfl, h.effect_pcb hp _ rfl rfl (fun w hw => absurd hw (by simp [Phase.pagedir])) rfl
        rfl (List.subset_cons_self ..)⟩
  | detach a =>
      exact ⟨_, rfl, h.effect_pcb hp _ rfl rfl (fun w hw => absurd hw (by simp [Phase.pagedir])) rfl
        rfl (List.subset_cons_self ..)⟩
  | free a d =>
      have hne := Option.isSome_iff_ne_none.mpr (hold.heap_ne (a := a) rfl)
      refine ⟨{ s with heap := Function.update s.heap a none }, ?_,
        h.effect_heap hp _ (.inl rfl) (fun b hb => absurd hb (by simp [Phase.pcb])) rfl rfl rfl
          (List.Subset.refl _)⟩
      show Option.bind (s.phase s.current).pcb _ = _
      rw [hp]
      exact if_pos hne

theorem granted_of_exec (h : s.exec i = some s') : Granted s i := by
  cases i with
  | malloc a garbage =>
      by_contra hno
      exact absurd ((if_neg hno).symm.trans h) (by simp)
  | calloc a =>
      by_contra hno
      exact absurd ((if_neg hno).symm.trans h) (by simp)
  | create d =>
      by_contra hno
      exact absurd ((if_neg hno).symm.trans h) (by simp)
  | _ => trivial

theorem Inv.run (h : Inv s) (hrun : s.run i = some s') : Inv s' := by
  obtain ⟨p', hp', hrun⟩ := Option.bind_eq_some_iff.mp hrun
  obtain ⟨s₁, hs₁, hrun⟩ := Option.bind_eq_some_iff.mp hrun
  obtain rfl := Option.some.inj hrun
  obtain ⟨s₂, hs₂, heffect⟩ := h.exec (Phase.next_of_eq hp') (granted_of_exec hs₁)
  obtain rfl := Option.some.inj (hs₁.symm.trans hs₂)
  exact heffect.inv h

/-! ### Operations of the scheduler -/

theorem newThread_fresh (h : s.sched.Inv) {sched : Sched} (hstep : s.sched.step o = some sched)
    (ht : newThread o = some t) : t ≠ s.sched.current := by
  have hfresh : s.sched.status t = none := by
    have hadmits := Sched.admits_of_step hstep
    cases o with
    | create page =>
        obtain rfl : page = some t := ht
        exact of_decide_eq_true hadmits
    | createBegin page =>
        obtain rfl := Option.some.inj ht
        exact of_decide_eq_true hadmits
    | _ => exact absurd ht (by simp [newThread])
  intro hcurrent
  rw [hcurrent, h.current] at hfresh
  exact absurd hfresh (by simp)

/-- Up to `schedule` the running thread stays the same. -/
theorem enter_current {s s' : Sched} (h : s.enter o = some s') : s'.current = s.current := by
  have hunblock : ∀ {s₁ : Sched} {t : Nat}, s₁.threadUnblock t = some s' →
      s₁.current = s.current → s'.current = s.current := by
    intro s₁ t h hs₁
    unfold Sched.threadUnblock at h
    split at h
    · obtain rfl := Option.some.inj h
      exact hs₁
    · exact absurd h (by simp)
  have hcurrent : ∀ {f : Nat → Sched}, s.threadCurrent.map f = some s' →
      (∀ cur, (f cur).current = s.current) → s'.current = s.current := by
    intro f h hf
    obtain ⟨cur, _, rfl⟩ := Option.map_eq_some_iff.mp h
    exact hf cur
  cases o with
  | create page =>
      cases page with
      | none => exact (congrArg Sched.current (Option.some.inj h)).symm
      | some page => exact hunblock h rfl
  | createBegin page => exact (congrArg Sched.current (Option.some.inj h)).symm
  | becomeIdle => exact hcurrent h fun _ => rfl
  | block => exact hcurrent h fun _ => rfl
  | semaDown sema => exact hcurrent h fun _ => rfl
  | unblock t => exact hunblock h rfl
  | semaUp sema =>
      unfold Sched.enter at h
      simp only at h
      split at h
      · exact (congrArg Sched.current (Option.some.inj h)).symm
      · exact hunblock h rfl
  | yield =>
      refine hcurrent h fun cur => ?_
      split <;> rfl
  | exit => exact hcurrent h fun _ => rfl

theorem step_current {s s' : Sched} (hop : o.schedules = false) (h : s.step o = some s') :
    s'.current = s.current := by
  unfold Sched.step at h
  split at h
  · obtain ⟨s₁, hs₁, h⟩ := Option.bind_eq_some_iff.mp h
    rw [hop] at h
    obtain rfl := Option.some.inj h
    exact enter_current hs₁
  · exact absurd h (by simp)

theorem Owned.congr (h : Owned s) (hphase : s'.phase = s.phase) (hpcb : s'.pcb = s.pcb)
    (hheap : s'.heap = s.heap) (hdirs : s'.dirs = s.dirs) : Owned s' := by
  refine ⟨fun t => ?_, ?_, ?_⟩
  · have hold := h.holds t
    rw [hphase]
    exact ⟨(congrFun hpcb t).trans hold.pcb, hheap ▸ hold.pagedir, hdirs ▸ hold.dir⟩
  · rw [hphase]
    exact h.pcbs
  · rw [hphase]
    exact h.dirs

theorem Owned.initThread (h : Owned s) (t : Option Nat) : Owned (s.initThread t) := by
  cases t with
  | none => exact h
  | some t =>
      have hpcb : ∀ u a, u ≠ t → Phase.kernel.pcb = some a → (s.phase u).pcb ≠ some a :=
        fun _ _ _ ha => absurd ha (by simp [Phase.pcb])
      have hdir : ∀ u a, u ≠ t → Phase.kernel.dir = some a → (s.phase u).dir ≠ some a :=
        fun _ _ _ ha => absurd ha (by simp [Phase.dir])
      refine ⟨fun u => ?_, unshared_update h.pcbs hpcb, unshared_update h.dirs hdir⟩
      show Holds _ u (Function.update s.phase t .kernel u)
      by_cases hu : u = t
      · subst hu
        rw [Function.update_self]
        exact ⟨Function.update_self _ _ _, fun _ ha => absurd ha (by simp [Phase.pcb]),
          fun _ hd => absurd hd (by simp [Phase.dir])⟩
      · rw [Function.update_of_ne hu]
        exact ⟨(Function.update_of_ne hu _ _).trans (h.holds u).pcb, (h.holds u).pagedir,
          (h.holds u).dir⟩

/-- `process_activate` finds the PCB, and its page directory is one that the thread may use. -/
theorem Owned.processActivate (h : Owned s) :
    ∃ pd ∈ (s.phase s.current).active,
      s.processActivate = some { s with cr3 := pd, esp0 := s.current + PGSIZE } := by
  have hold := h.holds s.current
  unfold Spaces.processActivate
  rcases (s.phase s.current).active_of_pcbVar with ⟨hvar, hmem⟩ | ⟨a, pd, hvar, hpcb, hpd, hmem⟩
  · refine ⟨none, hmem, ?_⟩
    rw [hold.pcb, hvar]
    rfl
  · obtain ⟨v, hv, hw⟩ := hold.pagedir a hpcb
    obtain rfl := hw pd hpd
    refine ⟨v, hmem, ?_⟩
    rw [hold.pcb, hvar]
    show Option.bind (s.heap a) _ = _
    rw [hv]
    rfl

/-- An operation that the scheduler can do does not fault. If it switches, `process_activate`
runs for the thread that comes next, and activates a page directory that its phase allows. -/
theorem Inv.op (h : Inv s) {sched : Sched} (hstep : s.sched.step o = some sched)
    (hexit : o = .exit → (s.phase s.current).mayExit = true) :
    ∃ s', s.op o = some s' ∧ s'.sched = sched ∧ Inv s' := by
  have hguard : ¬ (o = .exit ∧ (s.phase s.current).mayExit = false) := by
    rintro ⟨ho, hno⟩
    rw [hexit ho] at hno
    exact absurd hno (by decide)
  have heq : s.op o =
      if o.schedules then ({ s with sched }.initThread (newThread o)).processActivate
      else some ({ s with sched }.initThread (newThread o)) := by
    unfold Spaces.op
    rw [if_neg hguard, hstep]
    rfl
  have hcopy : Owned { s with sched } := h.toOwned.congr rfl rfl rfl rfl
  have howned : Owned ({ s with sched }.initThread (newThread o)) := hcopy.initThread _
  have hsame : ({ s with sched }.initThread (newThread o)).sched = sched ∧
      ({ s with sched }.initThread (newThread o)).cr3 = s.cr3 ∧
      ({ s with sched }.initThread (newThread o)).esp0 = s.esp0 := by
    cases newThread o <;> exact ⟨rfl, rfl, rfl⟩
  have hphase : ∀ t, newThread o ≠ some t →
      ({ s with sched }.initThread (newThread o)).phase t = s.phase t := by
    intro t ht
    cases hnew : newThread o with
    | none => rfl
    | some u =>
        have htu : t ≠ u := fun htu => ht (hnew.trans (congrArg some htu.symm))
        exact Function.update_of_ne htu _ _
  rw [heq]
  generalize { s with sched }.initThread (newThread o) = s₁ at howned hsame hphase
  obtain ⟨rfl, hcr3, hesp0⟩ := hsame
  have hsched := h.sched.step hstep
  cases hop : o.schedules with
  | true =>
      obtain ⟨pd, hpd, hactivate⟩ := howned.processActivate
      exact ⟨_, hactivate, rfl, howned.congr rfl rfl rfl rfl, hsched, hpd, rfl⟩
  | false =>
      have hcurrent : s₁.current = s.current := step_current hop hstep
      have hnew : newThread o ≠ some s.current := fun ht => newThread_fresh h.sched hstep ht rfl
      refine ⟨s₁, rfl, rfl, howned, hsched, ?_, ?_⟩
      · rw [hcurrent, hcr3, hphase _ hnew]
        exact h.active
      · rw [hcurrent, hesp0]
        exact h.tss

theorem Inv.step {a : Act} (h : Inv s) (hstep : Step s a s') : Inv s' := by
  cases a with
  | run i => exact h.run hstep
  | op o =>
      by_cases hguard : o = .exit ∧ (s.phase s.current).mayExit = false
      · exact absurd ((if_pos hguard).symm.trans hstep) (by simp)
      · have hop : (s.sched.step o).bind _ = some s' := (if_neg hguard).symm.trans hstep
        obtain ⟨sched, hsched, -⟩ := Option.bind_eq_some_iff.mp hop
        have hexit : o = .exit → (s.phase s.current).mayExit = true := fun ho =>
          Bool.of_not_eq_false fun hno => hguard ⟨ho, hno⟩
        obtain ⟨s₁, hs₁, -, hinv⟩ := h.op hsched hexit
        obtain rfl := Option.some.inj (hs₁.symm.trans hstep)
        exact hinv

/-! ### Every run -/

structure Safe (s : Spaces) : Prop where
  /-- Interrupts of user code use the kernel stack of the running thread. -/
  tss : s.esp0 = s.current + PGSIZE
  /-- The active page directory is the kernel's, or one of the thread's that is not given up. -/
  active : ∀ d, s.cr3 = some d → s.dirs d = some .intact ∧ (s.phase s.current).dir = some d
  user : ∀ a d, s.phase s.current = .user a d → s.cr3 = some d
  unshared : ∀ t u d, t ≠ u → (s.phase t).dir = some d → (s.phase u).dir ≠ some d
  /-- No statement uses memory that has been freed. -/
  instr : ∀ i, ((s.phase s.current).next i).isSome → Granted s i → (s.run i).isSome
  op : ∀ o, (s.sched.step o).isSome → (o = .exit → (s.phase s.current).mayExit = true) →
    (s.op o).isSome

/-- What the invariant says of the running thread is what the processor relies on. -/
theorem Inv.safe (h : Inv s) : Safe s where
  tss := h.tss
  active d hd := by
    have hactive := h.active
    rw [hd] at hactive
    obtain ⟨hdir, hintact⟩ := Phase.intact_of_active hactive
    refine ⟨?_, hdir⟩
    rw [(h.holds s.current).dir d hdir, hintact]
  user a d hp := by
    have hactive := h.active
    rw [hp] at hactive
    exact List.mem_singleton.mp hactive
  unshared := h.dirs
  instr i hnext hg := by
    obtain ⟨p', hp'⟩ := Option.isSome_iff_exists.mp hnext
    obtain ⟨s₁, hs₁, -⟩ := h.exec (Phase.next_of_eq hp') hg
    unfold Spaces.run
    rw [hp', hs₁]
    rfl
  op o hstep hexit := by
    obtain ⟨sched, hsched⟩ := Option.isSome_iff_exists.mp hstep
    obtain ⟨s₁, hs₁, -⟩ := h.op hsched hexit
    rw [hs₁]
    rfl

/-- **Address spaces.** However threads are preempted while their processes start and exit, the
active page directory is never one that is being destroyed or has been freed, `process_activate`
never follows a dangling pointer, and user code runs with its own page directory. -/
theorem spaces_safe {main : Nat} {ts : List (Transition Spaces Act)}
    (hrun : Run Step (boot main) ts) : ∀ τ ∈ ts, Safe τ.post := by
  intro τ hτ
  exact (hrun.invariant (I := Inv) (fun _ _ _ h hs => h.step hs) (boot_inv main) τ hτ).2.safe

/-- A process starts and exits, and is preempted at the critical places. -/
def sampleActs : List Act :=
  [.run (.calloc 64), .run .attach, .op (.create (some 8192)), .op .yield,
    .run (.malloc 128 (some 9)), .op .yield, .op .yield, .run .clear, .run .attach,
    .run (.create 12288), .op .yield, .op .yield, .run .store, .op .yield, .op .yield,
    .run .activate, .run .nullify, .op .yield, .op .yield, .run .activateBase, .run .condemn,
    .op .yield, .op .yield, .run .destroy, .run .detach, .run .free, .op .exit]

theorem spaces_safe_sample :
    (Run.trace step (boot 4096) sampleActs).Forall fun τ => Safe τ.post :=
  List.forall_iff_forall_mem.mpr (spaces_safe (Run.of_trace step (boot 4096) sampleActs))

end Spaces

end OsTools.Userprog

import OsTools.Lib.Fields
import OsTools.Lib.Run
import OsTools.Threads.IntrStubs
/-!
# OsTools.Userprog.Descriptors

The tables that tell the processor about interrupts and segments: `make_gate` and the
registration of handlers in `threads/interrupt.c`, and `make_seg_desc` and `gdt_init` in
`userprog/gdt.c`. `decodeGate` and `decodeSeg` read a descriptor as the processor does.

Numbers of at most 64 bits are `Nat`; no shift but one loses bits, and that one is
reduced.

## Proof shape

A descriptor is a sum of fields that do not overlap (`makeGate_eq`, `makeSegDesc_eq`), which
is shown once with the lemmas of `OsTools.Lib.Fields`; the processor takes it apart by
quotients and remainders, and these give back the fields. From there on nothing is about
bits.

The tables after a list of registrations are described by the list (`Reflects`): a vector
that was registered has its gate and its handler, all others have the gate of their stub.
One registration either is admissible and new, and then extends the list, or an assertion
fails (`register_some`, `register_refused`); `registers_spec` is the induction with what has
been registered so far as an accumulator. What the kernel registers in `main` is one such
list, for which the condition is evaluated.

For the segments the question is not what a table holds but what code can get from it:
`loadDs` goes over the selectors that a register can be loaded with, the null selector and
those outside of the table included, and `gdt_sound` says which segment each of them leads
to.
-/

namespace OsTools.Userprog

open OsTools.Threads

/-! ### Gates -/

/-- `make_gate`. -/
def makeGate (function dpl type : Nat) : Option Nat :=
  if function = 0 ∨ 3 < dpl ∨ 15 < type then none
  else
    let e0 := (function &&& 0xffff) ||| SEL_KCSEG.toNat <<< 16
    let e1 := (function &&& 0xffff0000) ||| 1 <<< 15 ||| dpl <<< 13 ||| 0 <<< 12 ||| type <<< 8
    some (e0 ||| e1 <<< 32)

def makeIntrGate (function dpl : Nat) : Option Nat := makeGate function dpl 14

def makeTrapGate (function dpl : Nat) : Option Nat := makeGate function dpl 15

/-- A present interrupt or trap gate for 32-bit code. -/
def decodeGate (d : Nat) : Option Gate :=
  if bits d 47 1 = 1 ∧ bits d 41 4 = 7 ∧ bits d 37 3 = 0 then
    some
      { offset := UInt32.ofNat (bits d 0 16 + 2 ^ 16 * bits d 48 16)
        selector := UInt16.ofNat (bits d 16 16)
        trap := bits d 40 1 = 1
        dpl := bits d 45 2 }
  else none

/-- The fields do not overlap: the gate is their sum. -/
theorem makeGate_eq {function dpl type : Nat} (hfun : function ≠ 0) (hdpl : dpl ≤ 3)
    (htype : type = 14 ∨ type = 15) :
    makeGate function dpl type =
      some (bits function 0 16 + 2 ^ 16 * 8 +
        2 ^ 32 * (2 ^ 16 * bits function 16 16 + 2 ^ 15 + 2 ^ 13 * dpl + 2 ^ 8 * type)) := by
  have hlow : function &&& 0xffff = bits function 0 16 := and_lowMask function 16
  have hhigh : function &&& 0xffff0000 = 2 ^ 16 * bits function 16 16 := and_highMask function 16 16
  have hl : bits function 0 16 < 2 ^ 16 := Nat.mod_lt _ (Nat.two_pow_pos 16)
  have hh : bits function 16 16 < 2 ^ 16 := Nat.mod_lt _ (Nat.two_pow_pos 16)
  have hsel : SEL_KCSEG.toNat <<< 16 = 2 ^ 16 * 8 := rfl
  unfold makeGate
  rw [if_neg (by omega), hlow, hhigh, hsel]
  generalize bits function 0 16 = low at hl
  generalize bits function 16 16 = high at hh
  have h0 : low ||| 2 ^ 16 * 8 = low + 2 ^ 16 * 8 := or_high 16 (Nat.dvd_mul_right _ _) hl
  have hpresent : 2 ^ 16 * high ||| 1 <<< 15 = 2 ^ 16 * high + 2 ^ 15 :=
    or_low 16 (Nat.dvd_mul_right _ _) (by decide)
  have hlevel : (2 ^ 16 * high + 2 ^ 15) ||| dpl <<< 13 =
      2 ^ 16 * high + 2 ^ 15 + 2 ^ 13 * dpl := by
    rw [shiftLeft_eq, or_low 15 (by omega) (by omega)]
  have hsystem : ∀ n : Nat, n ||| 0 <<< 12 = n := by
    intro n
    exact Nat.or_zero n
  have hkind : (2 ^ 16 * high + 2 ^ 15 + 2 ^ 13 * dpl) ||| type <<< 8 =
      2 ^ 16 * high + 2 ^ 15 + 2 ^ 13 * dpl + 2 ^ 8 * type := by
    rw [shiftLeft_eq, or_low 13 (by omega) (by omega)]
  simp only [h0, hpresent, hlevel, hsystem, hkind]
  rw [shiftLeft_eq, or_high 32 (Nat.dvd_mul_right _ _) (by omega)]

/-- The processor reads a gate as it was made: the two halves of the address are put together
again, and the selector, the type and the level are where it looks for them. -/
theorem decodeGate_makeGate {function dpl type : Nat} (hfun : function ≠ 0)
    (hlt : function < 2 ^ 32) (hdpl : dpl ≤ 3) (htype : type = 14 ∨ type = 15) :
    ∃ d, makeGate function dpl type = some d ∧
      decodeGate d = some ⟨UInt32.ofNat function, SEL_KCSEG, type = 15, dpl⟩ := by
  refine ⟨_, makeGate_eq hfun hdpl htype, ?_⟩
  have hl : bits function 0 16 < 2 ^ 16 := Nat.mod_lt _ (Nat.two_pow_pos 16)
  have hh : bits function 16 16 < 2 ^ 16 := Nat.mod_lt _ (Nat.two_pow_pos 16)
  have hfn : function = bits function 0 16 + 2 ^ 16 * bits function 16 16 := by
    unfold bits
    omega
  generalize bits function 0 16 = low at hl hfn ⊢
  generalize bits function 16 16 = high at hh hfn ⊢
  subst hfn
  generalize hd : low + 2 ^ 16 * 8 +
    2 ^ 32 * (2 ^ 16 * high + 2 ^ 15 + 2 ^ 13 * dpl + 2 ^ 8 * type) = d
  have hd47 : d / 2 ^ 47 = 2 * high + 1 := by omega
  have hd48 : d / 2 ^ 48 = high := by omega
  have hp : bits d 47 1 = 1 := by unfold bits; omega
  have hk : bits d 41 4 = 7 := by unfold bits; omega
  have hz : bits d 37 3 = 0 := by unfold bits; omega
  have hoff : bits d 0 16 = low := by unfold bits; omega
  have hoff' : bits d 48 16 = high := by unfold bits; omega
  have hsel : bits d 16 16 = 8 := by unfold bits; omega
  have htr : bits d 40 1 = type - 14 := by unfold bits; omega
  have hdp : bits d 45 2 = dpl := by unfold bits; omega
  unfold decodeGate
  rw [if_pos ⟨hp, hk, hz⟩, hoff, hoff', hsel, htr, hdp]
  have hiff : (type - 14 = 1) = (type = 15) := by
    apply propext
    omega
  simp only [hiff]
  rfl

/-! ### The interrupt table -/

inductive IntrLevel
  | off
  | on
  deriving DecidableEq

/-- `idt` and `intr_handlers`; the names of interrupts are left out. -/
structure IntrTables (H : Type*) where
  idt : UInt8 → Nat
  handlers : UInt8 → Option H

/-- A call of `intr_register_ext` or `intr_register_int`. -/
inductive Registration (H : Type*)
  | ext (vec : UInt8) (handler : H)
  | int (vec : UInt8) (dpl : Nat) (level : IntrLevel) (handler : H)

/-- What `intr_handler` does with an interrupt. -/
inductive Dispatch (H : Type*)
  | call (handler : H)
  | spurious
  | unexpected
  deriving DecidableEq

namespace IntrTables

variable {H : Type*} {stubs : UInt8 → UInt32} {t t' : IntrTables H}

def setGate (t : IntrTables H) (vec : UInt8) (gate : Option Nat) : Option (IntrTables H) :=
  gate.map fun g => { t with idt := Function.update t.idt vec g }

/-- The loop of `intr_init`. -/
def initGates (stubs : UInt8 → UInt32) (t : IntrTables H) (vecs : List UInt8) :
    Option (IntrTables H) :=
  vecs.foldlM (fun t i => t.setGate i (makeIntrGate (stubs i).toNat 0)) t

def intrInit (stubs : UInt8 → UInt32) : Option (IntrTables H) :=
  initGates stubs ⟨fun _ => 0, fun _ => none⟩ ((List.range 256).map UInt8.ofNat)

def registerHandler (stubs : UInt8 → UInt32) (t : IntrTables H) (vec : UInt8) (dpl : Nat)
    (level : IntrLevel) (handler : H) : Option (IntrTables H) :=
  if (t.handlers vec).isSome then none
  else do
    let t ← t.setGate vec
      (if level = .on then makeTrapGate (stubs vec).toNat dpl
      else makeIntrGate (stubs vec).toNat dpl)
    some { t with handlers := Function.update t.handlers vec (some handler) }

/-- `intr_register_ext` and `intr_register_int`. -/
def register (stubs : UInt8 → UInt32) (t : IntrTables H) : Registration H → Option (IntrTables H)
  | .ext vec handler =>
      if vec ≥ 0x20 ∧ vec ≤ 0x2f then t.registerHandler stubs vec 0 .off handler else none
  | .int vec dpl level handler =>
      if vec < 0x20 ∨ vec > 0x2f then t.registerHandler stubs vec dpl level handler else none

/-- `intr_init` and the registrations after it. -/
def boot (stubs : UInt8 → UInt32) (rs : List (Registration H)) : Option (IntrTables H) := do
  rs.foldlM (register stubs) (← intrInit stubs)

/-- Which handler `intr_handler` calls. -/
def dispatch (t : IntrTables H) (vec : UInt8) : Dispatch H :=
  match t.handlers vec with
  | some handler => .call handler
  | none => if vec = 0x27 ∨ vec = 0x2f then .spurious else .unexpected

end IntrTables

namespace Registration

variable {H : Type*}

def vec : Registration H → UInt8
  | .ext v _ => v
  | .int v _ _ _ => v

def handler : Registration H → H
  | .ext _ h => h
  | .int _ _ _ h => h

/-- The gate that a registration asks for. -/
def gate (stubs : UInt8 → UInt32) : Registration H → Gate
  | .ext v _ => ⟨stubs v, SEL_KCSEG, false, 0⟩
  | .int v dpl level _ => ⟨stubs v, SEL_KCSEG, level = .on, dpl⟩

/-- External interrupts have the vectors 0x20 to 0x2f. -/
def isExternal (v : UInt8) : Prop := v ≥ 0x20 ∧ v ≤ 0x2f

def Admissible : Registration H → Prop
  | .ext v _ => isExternal v
  | .int v dpl _ _ => ¬ isExternal v ∧ dpl ≤ 3

/-- The registrations succeed: each one is admissible and no vector is taken twice. -/
def Accepted (rs : List (Registration H)) : Prop :=
  (∀ r ∈ rs, r.Admissible) ∧ rs.Pairwise fun r r' => r.vec ≠ r'.vec

def ofVec (rs : List (Registration H)) (v : UInt8) : Option (Registration H) :=
  rs.find? fun r => r.vec = v

end Registration

/-- The gate of a vector without a handler. -/
def unregisteredGate (stubs : UInt8 → UInt32) (v : UInt8) : Gate := ⟨stubs v, SEL_KCSEG, false, 0⟩

namespace IntrTables

open Registration

variable {H : Type*} {stubs : UInt8 → UInt32} {t t' : IntrTables H}

/-- The tables after the registrations `rs`. -/
structure Reflects (stubs : UInt8 → UInt32) (rs : List (Registration H)) (t : IntrTables H) :
    Prop where
  handlers : ∀ v, t.handlers v = (ofVec rs v).map handler
  gates : ∀ v, decodeGate (t.idt v) =
    some ((ofVec rs v).elim (unregisteredGate stubs v) (gate stubs))

theorem setGate_spec {function : UInt32} (hfun : function ≠ 0) (vec : UInt8) {dpl type : Nat}
    (hdpl : dpl ≤ 3) (htype : type = 14 ∨ type = 15) (t : IntrTables H) :
    ∃ g, decodeGate g = some ⟨function, SEL_KCSEG, type = 15, dpl⟩ ∧
      t.setGate vec (makeGate function.toNat dpl type) =
        some { t with idt := Function.update t.idt vec g } := by
  have hne : function.toNat ≠ 0 := by
    intro h
    exact hfun (UInt32.toNat_inj.mp h)
  obtain ⟨g, hg, hdecode⟩ := decodeGate_makeGate hne function.toNat_lt hdpl htype
  rw [UInt32.ofNat_toNat] at hdecode
  exact ⟨g, hdecode, by rw [setGate, hg]; rfl⟩

theorem initGates_spec (hstubs : ∀ v, stubs v ≠ 0) (vecs : List UInt8) (t : IntrTables H) :
    ∃ t', initGates stubs t vecs = some t' ∧ t'.handlers = t.handlers ∧
      (∀ v, v ∈ vecs ∨ decodeGate (t.idt v) = some (unregisteredGate stubs v) →
        decodeGate (t'.idt v) = some (unregisteredGate stubs v)) := by
  induction vecs generalizing t with
  | nil => exact ⟨t, rfl, rfl, fun v hv => hv.resolve_left List.not_mem_nil⟩
  | cons i vecs ih =>
      obtain ⟨g, hg, hset⟩ := setGate_spec (hstubs i) i (Nat.zero_le 3) (.inl rfl) t
      obtain ⟨t', ht', hhandlers, hgates⟩ := ih { t with idt := Function.update t.idt i g }
      refine ⟨t', ?_, hhandlers, ?_⟩
      · unfold initGates
        rw [List.foldlM_cons]
        unfold makeIntrGate
        rw [hset]
        exact ht'
      · intro v hv
        apply hgates
        by_cases hvi : v = i
        · subst hvi
          exact .inr (by simpa [unregisteredGate] using hg)
        · refine hv.imp (fun h => (List.mem_cons.mp h).resolve_left hvi) fun h => ?_
          exact (congrArg decodeGate (Function.update_of_ne hvi g t.idt)).trans h

theorem intrInit_spec (hstubs : ∀ v, stubs v ≠ 0) :
    ∃ t : IntrTables H, intrInit stubs = some t ∧ Reflects stubs [] t := by
  obtain ⟨t, ht, hhandlers, hgates⟩ := initGates_spec (H := H) hstubs
    ((List.range 256).map UInt8.ofNat) ⟨fun _ => 0, fun _ => none⟩
  refine ⟨t, ht, fun v => ?_, fun v => hgates v (.inl ?_)⟩
  · rw [hhandlers]
    rfl
  · exact List.mem_map.mpr ⟨v.toNat, List.mem_range.mpr v.toNat_lt, UInt8.ofNat_toNat⟩

theorem not_isExternal {v : UInt8} : ¬ isExternal v ↔ v < 0x20 ∨ v > 0x2f := by
  unfold isExternal
  rw [not_and_or, UInt8.not_le, UInt8.not_le]

theorem registerHandler_some (hstubs : ∀ v, stubs v ≠ 0) {v : UInt8} {dpl : Nat} (hdpl : dpl ≤ 3)
    (level : IntrLevel) (h : H) (hfree : t.handlers v = none) :
    ∃ g, decodeGate g = some ⟨stubs v, SEL_KCSEG, level = .on, dpl⟩ ∧
      t.registerHandler stubs v dpl level h = some
        { idt := Function.update t.idt v g
          handlers := Function.update t.handlers v (some h) } := by
  have htaken : ¬ (t.handlers v).isSome := by rw [hfree]; simp
  unfold registerHandler
  rw [if_neg htaken]
  cases level with
  | on =>
      obtain ⟨g, hg, hset⟩ := setGate_spec (hstubs v) v hdpl (.inr rfl) t
      refine ⟨g, by simpa using hg, ?_⟩
      rw [if_pos rfl, makeTrapGate, hset]
      rfl
  | off =>
      obtain ⟨g, hg, hset⟩ := setGate_spec (hstubs v) v hdpl (.inl rfl) t
      refine ⟨g, by simpa using hg, ?_⟩
      rw [if_neg (by decide), makeIntrGate, hset]
      rfl

/-- A registration that is admissible and whose vector is free sets one gate and one handler. -/
theorem register_some (hstubs : ∀ v, stubs v ≠ 0) {r : Registration H} (hr : r.Admissible)
    (hfree : t.handlers r.vec = none) :
    ∃ g, decodeGate g = some (r.gate stubs) ∧
      t.register stubs r = some
        { idt := Function.update t.idt r.vec g
          handlers := Function.update t.handlers r.vec (some r.handler) } := by
  cases r with
  | ext v h =>
      obtain ⟨g, hg, hset⟩ := registerHandler_some hstubs (Nat.zero_le 3) .off h hfree
      exact ⟨g, hg, (if_pos hr).trans hset⟩
  | int v dpl level h =>
      obtain ⟨g, hg, hset⟩ := registerHandler_some hstubs hr.2 level h hfree
      exact ⟨g, hg, (if_pos (not_isExternal.mp hr.1)).trans hset⟩

theorem registerHandler_taken {v : UInt8} {dpl : Nat} {level : IntrLevel} {h : H}
    (htaken : t.handlers v ≠ none) : t.registerHandler stubs v dpl level h = none := by
  unfold registerHandler
  rw [if_pos (Option.isSome_iff_ne_none.mpr htaken)]

theorem registerHandler_dpl {v : UInt8} {dpl : Nat} {level : IntrLevel} {h : H}
    (hdpl : ¬ dpl ≤ 3) : t.registerHandler stubs v dpl level h = none := by
  have hgate : ∀ type, makeGate (stubs v).toNat dpl type = none := by
    intro type
    exact if_pos (.inr (.inl (by omega)))
  unfold registerHandler makeTrapGate makeIntrGate
  rw [hgate, hgate, ite_self]
  exact ite_self none

theorem register_refused {r : Registration H} (h : ¬ (r.Admissible ∧ t.handlers r.vec = none)) :
    t.register stubs r = none := by
  cases r with
  | ext v f =>
      by_cases hv : isExternal v
      · have htaken : t.handlers v ≠ none := fun hfree => h ⟨hv, hfree⟩
        exact (if_pos hv).trans (registerHandler_taken htaken)
      · exact if_neg hv
  | int v dpl level f =>
      by_cases hv : isExternal v
      · exact if_neg (not_isExternal.not.mp (not_not_intro hv))
      · refine (if_pos (not_isExternal.mp hv)).trans ?_
        by_cases hdpl : dpl ≤ 3
        · have htaken : t.handlers v ≠ none := fun hfree => h ⟨⟨hv, hdpl⟩, hfree⟩
          exact registerHandler_taken htaken
        · exact registerHandler_dpl hdpl

/-- One registration extends the list. -/
theorem Reflects.register (hstubs : ∀ v, stubs v ≠ 0) {rs : List (Registration H)}
    {r : Registration H} (h : Reflects stubs rs t) (hr : r.Admissible)
    (hnew : ofVec rs r.vec = none) :
    ∃ t', t.register stubs r = some t' ∧ Reflects stubs (rs ++ [r]) t' := by
  have hfree : t.handlers r.vec = none := by rw [h.handlers, hnew]; rfl
  obtain ⟨g, hg, hset⟩ := register_some hstubs hr hfree
  have hsame : ofVec (rs ++ [r]) r.vec = some r := by
    unfold ofVec at hnew ⊢
    rw [List.find?_append, hnew]
    simp
  have hother : ∀ v, v ≠ r.vec → ofVec (rs ++ [r]) v = ofVec rs v := by
    intro v hv
    unfold ofVec
    rw [List.find?_append, List.find?_cons_of_neg (by simpa using hv.symm)]
    exact Option.or_none
  refine ⟨_, hset, fun v => ?_, fun v => ?_⟩
  · by_cases hv : v = r.vec
    · subst hv
      rw [hsame]
      exact Function.update_self _ _ _
    · rw [hother v hv, ← h.handlers]
      exact Function.update_of_ne hv _ _
  · by_cases hv : v = r.vec
    · subst hv
      rw [hsame]
      exact (congrArg decodeGate (Function.update_self r.vec g t.idt)).trans hg
    · rw [hother v hv, ← h.gates]
      exact congrArg decodeGate (Function.update_of_ne hv g t.idt)

theorem ofVec_eq_none {rs : List (Registration H)} {v : UInt8} :
    ofVec rs v = none ↔ ∀ r ∈ rs, r.vec ≠ v := by
  unfold ofVec
  rw [List.find?_eq_none]
  simp

/-- The registrations after `done` succeed if they fit, and otherwise an assertion fails. By
induction on them; a vector is free as long as no registration in `done` has it. -/
theorem registers_spec (hstubs : ∀ v, stubs v ≠ 0) (rs done : List (Registration H))
    (h : Reflects stubs done t) :
    ((∀ r ∈ rs, r.Admissible ∧ ∀ d ∈ done, d.vec ≠ r.vec) ∧
        (rs.Pairwise fun r r' => r.vec ≠ r'.vec) →
      ∃ t', rs.foldlM (IntrTables.register stubs) t = some t' ∧ Reflects stubs (done ++ rs) t') ∧
    (¬ ((∀ r ∈ rs, r.Admissible ∧ ∀ d ∈ done, d.vec ≠ r.vec) ∧
        rs.Pairwise fun r r' => r.vec ≠ r'.vec) →
      rs.foldlM (IntrTables.register stubs) t = none) := by
  induction rs generalizing done t with
  | nil =>
      refine ⟨fun _ => ⟨t, rfl, by rwa [List.append_nil]⟩, fun hno => absurd ?_ hno⟩
      exact ⟨fun r hr => absurd hr List.not_mem_nil, List.Pairwise.nil⟩
  | cons r rs ih =>
      rw [List.foldlM_cons]
      by_cases hr : r.Admissible ∧ ofVec done r.vec = none
      · obtain ⟨t', ht', h'⟩ := h.register hstubs hr.1 hr.2
        rw [ht']
        have hfits : ((∀ a ∈ r :: rs, a.Admissible ∧ ∀ d ∈ done, d.vec ≠ a.vec) ∧
            (r :: rs).Pairwise fun a a' => a.vec ≠ a'.vec) ↔
            ((∀ a ∈ rs, a.Admissible ∧ ∀ d ∈ done ++ [r], d.vec ≠ a.vec) ∧
              rs.Pairwise fun a a' => a.vec ≠ a'.vec) := by
          have hdone := ofVec_eq_none.mp hr.2
          simp only [List.forall_mem_cons, List.pairwise_cons, List.forall_mem_append,
            List.not_mem_nil, false_implies, implies_true, and_true, hr.1, true_and]
          constructor
          · rintro ⟨⟨_, hrs⟩, hne, hpair⟩
            exact ⟨fun a ha => ⟨(hrs a ha).1, (hrs a ha).2, hne a ha⟩, hpair⟩
          · rintro ⟨hrs, hpair⟩
            exact ⟨⟨hdone, fun a ha => ⟨(hrs a ha).1, (hrs a ha).2.1⟩⟩,
              fun a ha => (hrs a ha).2.2, hpair⟩
        rw [hfits]
        have ih' := ih (done ++ [r]) h'
        rw [List.append_assoc] at ih'
        exact ih'
      · have hrefused : t.register stubs r = none := by
          refine register_refused fun hok => hr ⟨hok.1, ?_⟩
          have hnone := hok.2
          rw [h.handlers, Option.map_eq_none_iff] at hnone
          exact hnone
        rw [hrefused]
        refine ⟨fun hfits => absurd ⟨?_, ?_⟩ hr, fun _ => rfl⟩
        · exact (hfits.1 r List.mem_cons_self).1
        · exact ofVec_eq_none.mpr (hfits.1 r List.mem_cons_self).2

theorem boot_spec (hstubs : ∀ v, stubs v ≠ 0) (rs : List (Registration H)) :
    (Accepted rs → ∃ t, boot stubs rs = some t ∧ Reflects stubs rs t) ∧
    (¬ Accepted rs → boot stubs rs = none) := by
  obtain ⟨t, ht, hreflects⟩ := intrInit_spec (H := H) hstubs
  have hspec := registers_spec hstubs rs [] hreflects
  have hboot : boot stubs rs = rs.foldlM (IntrTables.register stubs) t := by
    unfold boot
    rw [ht]
    rfl
  have hiff : Accepted rs ↔ (∀ r ∈ rs, r.Admissible ∧ ∀ d ∈ ([] : List (Registration H)),
      d.vec ≠ r.vec) ∧ rs.Pairwise fun r r' => r.vec ≠ r'.vec := by
    simp [Accepted]
  rw [hboot, hiff]
  exact hspec

theorem interrupt_cs (c : Core) (tss : Tss) (gate : Gate) (err : Option UInt32) :
    (c.interrupt tss gate err).seg .cs = gate.selector := by
  unfold Core.interrupt
  simp only [Function.update_self]

/-- An interrupt gate disables interrupts. -/
theorem interrupt_flags {c : Core} {tss : Tss} {gate : Gate} {err : Option UInt32}
    (hgate : gate.trap = false) : (c.interrupt tss gate err).eflags &&& Core.FLAG_IF = 0 := by
  have hmask : ~~~Core.FLAG_IF &&& Core.FLAG_IF = 0 := by decide
  unfold Core.interrupt Core.entryFlags
  rw [hgate]
  simp only [Bool.false_eq_true, if_false]
  rw [UInt32.and_assoc, hmask, UInt32.and_zero]

theorem gate_external (stubs : UInt8 → UInt32) {r : Registration H} (hr : r.Admissible)
    (hv : isExternal r.vec) : (r.gate stubs).trap = false ∧ (r.gate stubs).dpl = 0 := by
  cases r with
  | ext v h => exact ⟨rfl, rfl⟩
  | int v dpl level h => exact absurd hv hr.1

theorem ofVec_eq_some {rs : List (Registration H)} {r : Registration H}
    (hpair : rs.Pairwise fun r r' => r.vec ≠ r'.vec) (hr : r ∈ rs) : ofVec rs r.vec = some r := by
  induction rs with
  | nil => exact absurd hr List.not_mem_nil
  | cons a rs ih =>
      rw [List.pairwise_cons] at hpair
      rcases List.mem_cons.mp hr with rfl | hr
      · exact List.find?_cons_of_pos (by simp)
      · refine Eq.trans (List.find?_cons_of_neg ?_) (ih hpair.2 hr)
        simpa using hpair.1 r hr

/-- Whatever is registered in whatever order: a registration fails exactly if it takes a vector
twice or one of the wrong kind, and otherwise every interrupt enters its stub in kernel code
and goes to its own handler, an external one with interrupts off and never for user code. -/
theorem idt_sound (hstubs : ∀ v, stubs v ≠ 0) (rs : List (Registration H)) :
    ((boot stubs rs).isSome ↔ Accepted rs) ∧
    ∀ t, boot stubs rs = some t → ∀ (v : UInt8) (c : Core) (tss : Tss) (err : Option UInt32),
      ∃ gate, decodeGate (t.idt v) = some gate ∧
        (c.interrupt tss gate err).eip = stubs v ∧
        (c.interrupt tss gate err).seg .cs = SEL_KCSEG ∧
        (isExternal v → gate.dpl = 0 ∧ (c.interrupt tss gate err).eflags &&& Core.FLAG_IF = 0) ∧
        (∀ r ∈ rs, r.vec = v → gate = r.gate stubs ∧ t.dispatch v = .call r.handler) ∧
        ((∀ r ∈ rs, r.vec ≠ v) → gate = unregisteredGate stubs v ∧
          t.dispatch v = if v = 0x27 ∨ v = 0x2f then .spurious else .unexpected) := by
  obtain ⟨hyes, hno⟩ := boot_spec hstubs rs
  have hiff : (boot stubs rs).isSome ↔ Accepted rs := by
    constructor
    · intro h
      by_contra hrs
      rw [hno hrs] at h
      exact absurd h (by simp)
    · intro hrs
      obtain ⟨t, ht, _⟩ := hyes hrs
      rw [ht]
      rfl
  refine ⟨hiff, fun t ht v c tss err => ?_⟩
  have haccepted : Accepted rs := hiff.mp (by rw [ht]; rfl)
  obtain ⟨t', ht', hreflects⟩ := hyes haccepted
  obtain rfl : t' = t := Option.some.inj (ht'.symm.trans ht)
  have hunique := fun r (hr : r ∈ rs) => ofVec_eq_some haccepted.2 hr
  have hfree : (∀ r ∈ rs, r.vec ≠ v) → ofVec rs v = none := ofVec_eq_none.mpr
  refine ⟨_, hreflects.gates v, ?_⟩
  have hhandler := hreflects.handlers v
  rcases Classical.em (∃ r ∈ rs, r.vec = v) with ⟨r, hr, rfl⟩ | hnone
  · rw [hunique r hr] at hhandler ⊢
    have hstub : (r.gate stubs).offset = stubs r.vec ∧ (r.gate stubs).selector = SEL_KCSEG := by
      cases r <;> exact ⟨rfl, rfl⟩
    refine ⟨hstub.1, (interrupt_cs c tss _ err).trans hstub.2, fun hext => ?_,
      fun r' hr' hv => ?_, fun hno => absurd rfl (hno r hr)⟩
    · have hgate := gate_external stubs (haccepted.1 r hr) hext
      exact ⟨hgate.2, interrupt_flags hgate.1⟩
    · have hsame := hunique r' hr'
      rw [hv, hunique r hr] at hsame
      obtain rfl := Option.some.inj hsame
      refine ⟨rfl, ?_⟩
      unfold dispatch
      rw [hhandler]
      rfl
  · have hno : ∀ r ∈ rs, r.vec ≠ v := by
      intro r hr hv
      exact hnone ⟨r, hr, hv⟩
    rw [hfree hno] at hhandler ⊢
    refine ⟨rfl, interrupt_cs c tss _ err, fun _ => ⟨rfl, interrupt_flags rfl⟩,
      fun r hr hv => absurd hv (hno r hr), fun _ => ⟨rfl, ?_⟩⟩
    unfold dispatch
    rw [hhandler]
    rfl

end IntrTables

/-- The handlers of the kernel. -/
inductive Handler
  | timer
  | keyboard
  | kill
  | pageFault
  | syscall
  | serial
  | ide
  deriving DecidableEq

/-- `exception_init`. -/
def exceptionInit : List (Registration Handler) :=
  [.int 3 3 .on .kill, .int 4 3 .on .kill, .int 5 3 .on .kill, .int 0 0 .on .kill,
    .int 1 0 .on .kill, .int 6 0 .on .kill, .int 7 0 .on .kill, .int 11 0 .on .kill,
    .int 12 0 .on .kill, .int 13 0 .on .kill, .int 16 0 .on .kill, .int 19 0 .on .kill,
    .int 14 0 .off .pageFault]

/-- `syscall_init`. -/
def syscallInit : List (Registration Handler) := [.int 0x30 3 .on .syscall]

/-- The registrations of `main`, in its order. -/
def mainRegistrations : List (Registration Handler) :=
  [.ext 0x20 .timer, .ext 0x21 .keyboard] ++ exceptionInit ++ syscallInit ++
    [.ext 0x24 .serial, .ext 0x2e .ide, .ext 0x2f .ide]

/-- The vectors that user code may raise with `int`. -/
def userVectors : List UInt8 := [3, 4, 5, 0x30]

open Registration in
instance decidableAdmissible : DecidablePred (Admissible (H := Handler)) := fun r =>
  match r with
  | .ext v _ => inferInstanceAs (Decidable (v ≥ 0x20 ∧ v ≤ 0x2f))
  | .int v dpl _ _ => inferInstanceAs (Decidable (¬ (v ≥ 0x20 ∧ v ≤ 0x2f) ∧ dpl ≤ 3))

/-- The registrations of `main` are admissible, and user code can raise just the interrupts
that are meant for it. -/
theorem idt_sound_main :
    ∃ t, IntrTables.boot (fun _ => 0x1000) mainRegistrations = some t ∧
      ∀ v gate, decodeGate (t.idt v) = some gate → (gate.dpl = 3 ↔ v ∈ userVectors) := by
  have hsound := @IntrTables.idt_sound Handler (fun _ => 0x1000) (fun _ => by decide)
    mainRegistrations
  have hvecs : (mainRegistrations.map fun r => r.vec.toNat).Nodup := by decide
  have haccepted : Registration.Accepted mainRegistrations :=
    ⟨by decide, (List.pairwise_map.mp hvecs).imp fun hne hv => hne (congrArg UInt8.toNat hv)⟩
  obtain ⟨t, ht⟩ := Option.isSome_iff_exists.mp (hsound.1.mpr haccepted)
  refine ⟨t, ht, fun v gate hgate => ?_⟩
  obtain ⟨gate', hgate', _, _, _, hregistered, hfree⟩ :=
    hsound.2 t ht v Intr.sampleCore ⟨0, 0⟩ none
  obtain rfl : gate' = gate := Option.some.inj (hgate'.symm.trans hgate)
  have hlevels : ∀ r ∈ mainRegistrations,
      ((r.gate fun _ => 0x1000).dpl = 3 ↔ r.vec ∈ userVectors) := by
    decide
  have htaken : userVectors ⊆ mainRegistrations.map Registration.vec := by decide
  rcases Classical.em (∃ r ∈ mainRegistrations, r.vec = v) with ⟨r, hr, rfl⟩ | hnone
  · rw [(hregistered r hr rfl).1]
    exact hlevels r hr
  · have hlevel : gate'.dpl = 0 := by
      rw [(hfree fun r hr hv => hnone ⟨r, hr, hv⟩).1]
      rfl
    rw [hlevel]
    exact iff_of_false (by decide) fun hv => hnone (List.mem_map.mp (htaken hv))

/-! ### Segments -/

inductive SegClass
  | system
  | codeData
  deriving DecidableEq

inductive Granularity
  | byte
  | page
  deriving DecidableEq

def SegClass.toNat : SegClass → Nat
  | .system => 0
  | .codeData => 1

def Granularity.toNat : Granularity → Nat
  | .byte => 0
  | .page => 1

/-- `make_seg_desc`. -/
def makeSegDesc (base limit : Nat) (cls : SegClass) (type dpl : Nat) (granularity : Granularity) :
    Option Nat :=
  if 0xfffff < limit ∨ 15 < type ∨ 3 < dpl then none
  else
    let e0 := (limit &&& 0xffff) ||| base <<< 16 % 2 ^ 32
    let e1 := ((base >>> 16) &&& 0xff) ||| type <<< 8 ||| cls.toNat <<< 12 ||| dpl <<< 13 |||
      1 <<< 15 ||| (limit &&& 0xf0000) ||| 1 <<< 22 ||| granularity.toNat <<< 23 |||
      (base &&& 0xff000000)
    some (e0 ||| e1 <<< 32)

def makeCodeDesc (dpl : Nat) : Option Nat := makeSegDesc 0 0xfffff .codeData 10 dpl .page

def makeDataDesc (dpl : Nat) : Option Nat := makeSegDesc 0 0xfffff .codeData 2 dpl .page

def makeTssDesc (laddr : Nat) : Option Nat := makeSegDesc laddr 0x67 .system 9 0 .byte

def SEL_NULL : Nat := 0x00
def SEL_UCSEG : Nat := 0x1B
def SEL_UDSEG : Nat := 0x23
def SEL_TSS : Nat := 0x28
def SEL_CNT : Nat := 6

/-- `gdt_init`, with the address of the task-state segment. -/
def gdtInit (tss : Nat) : Option (Nat → Nat) := do
  let gdt := Function.update (fun _ => 0) (SEL_NULL / 8) 0
  let gdt := Function.update gdt (SEL_KCSEG.toNat / 8) (← makeCodeDesc 0)
  let gdt := Function.update gdt (SEL_KDSEG.toNat / 8) (← makeDataDesc 0)
  let gdt := Function.update gdt (SEL_UCSEG / 8) (← makeCodeDesc 3)
  let gdt := Function.update gdt (SEL_UDSEG / 8) (← makeDataDesc 3)
  let gdt := Function.update gdt (SEL_TSS / 8) (← makeTssDesc tss)
  some gdt

/-- What a present descriptor of a 32-bit segment says. -/
structure SegDesc where
  base : Nat
  limit : Nat
  cls : SegClass
  type : Nat
  dpl : Nat
  granularity : Granularity
  deriving DecidableEq

def decodeSeg (d : Nat) : Option SegDesc :=
  if bits d 47 1 = 1 ∧ bits d 52 3 = 4 then
    some
      { base := bits d 16 24 + 2 ^ 24 * bits d 56 8
        limit := bits d 0 16 + 2 ^ 16 * bits d 48 4
        cls := if bits d 44 1 = 1 then .codeData else .system
        type := bits d 40 4
        dpl := bits d 45 2
        granularity := if bits d 55 1 = 1 then .page else .byte }
  else none

theorem SegClass.toNat_le (cls : SegClass) : cls.toNat ≤ 1 := by cases cls <;> decide

theorem Granularity.toNat_le (g : Granularity) : g.toNat ≤ 1 := by cases g <;> decide

/-- The descriptor is the sum of its fields, each of which is a range of bits of an
argument at its place. The two words of the source are put together field by field, from
the low end. -/
theorem makeSegDesc_eq {base limit type dpl : Nat} (cls : SegClass) (granularity : Granularity)
    (hlimit : limit < 2 ^ 20) (htype : type ≤ 15) (hdpl : dpl ≤ 3) :
    makeSegDesc base limit cls type dpl granularity =
      some (bits limit 0 16 + 2 ^ 16 * bits base 0 16 +
        2 ^ 32 * (bits base 16 8 + 2 ^ 8 * type + 2 ^ 12 * cls.toNat + 2 ^ 13 * dpl + 2 ^ 15 +
          2 ^ 16 * bits limit 16 4 + 2 ^ 22 + 2 ^ 23 * granularity.toNat +
          2 ^ 24 * bits base 24 8)) := by
  have hc := cls.toNat_le
  have hg := granularity.toNat_le
  have hbase : base <<< 16 % 2 ^ 32 = 2 ^ 16 * bits base 0 16 := by
    rw [shiftLeft_eq]
    unfold bits
    omega
  have hmid : (base >>> 16) &&& 0xff = bits base 16 8 := by
    rw [Nat.shiftRight_eq_div_pow]
    exact Nat.and_two_pow_sub_one_eq_mod _ 8
  have hhigh : base &&& 0xff000000 = 2 ^ 24 * bits base 24 8 := and_highMask base 24 8
  have hlow : limit &&& 0xffff = bits limit 0 16 := and_lowMask limit 16
  have htop : limit &&& 0xf0000 = 2 ^ 16 * bits limit 16 4 := and_highMask limit 16 4
  have hl : bits limit 0 16 < 2 ^ 16 := Nat.mod_lt _ (Nat.two_pow_pos 16)
  have ht : bits limit 16 4 < 2 ^ 4 := Nat.mod_lt _ (Nat.two_pow_pos 4)
  have hb : bits base 0 16 < 2 ^ 16 := Nat.mod_lt _ (Nat.two_pow_pos 16)
  have hm : bits base 16 8 < 2 ^ 8 := Nat.mod_lt _ (Nat.two_pow_pos 8)
  have hh : bits base 24 8 < 2 ^ 8 := Nat.mod_lt _ (Nat.two_pow_pos 8)
  unfold makeSegDesc
  rw [if_neg (by omega), hbase, hmid, hhigh, hlow, htop]
  generalize bits limit 0 16 = l0 at hl
  generalize bits limit 16 4 = l1 at ht
  generalize bits base 0 16 = b0 at hb
  generalize bits base 16 8 = b1 at hm
  generalize bits base 24 8 = b2 at hh
  generalize cls.toNat = c at hc
  generalize granularity.toNat = g at hg
  simp only [shiftLeft_eq]
  have h0 : l0 ||| 2 ^ 16 * b0 = l0 + 2 ^ 16 * b0 := or_high 16 (Nat.dvd_mul_right _ _) hl
  rw [h0, or_high 8 (Nat.dvd_mul_right _ _) hm, or_high 12 (Nat.dvd_mul_right _ _) (by omega),
    or_high 13 (Nat.dvd_mul_right _ _) (by omega), or_high 15 (Nat.dvd_mul_right _ _) (by omega),
    or_high 16 (Nat.dvd_mul_right _ _) (by omega), or_high 22 (Nat.dvd_mul_right _ _) (by omega),
    or_high 23 (Nat.dvd_mul_right _ _) (by omega), or_high 24 (Nat.dvd_mul_right _ _) (by omega),
    or_high 32 (Nat.dvd_mul_right _ _) (by omega), Nat.mul_one, Nat.mul_one]

/-- The fields of a segment descriptor, from their quotients. -/
theorem segFields (l0 l1 b0 b1 b2 : Nat) {type c dpl g d : Nat} (hl : l0 < 2 ^ 16) (ht : l1 < 2 ^ 4)
    (hb : b0 < 2 ^ 16) (hm : b1 < 2 ^ 8) (hh : b2 < 2 ^ 8) (htype : type ≤ 15) (hc : c ≤ 1)
    (hdpl : dpl ≤ 3) (hg : g ≤ 1)
    (hd : d = l0 + 2 ^ 16 * b0 + 2 ^ 32 * (b1 + 2 ^ 8 * type + 2 ^ 12 * c + 2 ^ 13 * dpl +
      2 ^ 15 + 2 ^ 16 * l1 + 2 ^ 22 + 2 ^ 23 * g + 2 ^ 24 * b2)) :
    bits d 0 16 = l0 ∧ bits d 16 24 = b0 + 2 ^ 16 * b1 ∧ bits d 40 4 = type ∧ bits d 44 1 = c ∧
      bits d 45 2 = dpl ∧ bits d 47 1 = 1 ∧ bits d 48 4 = l1 ∧ bits d 52 3 = 4 ∧
      bits d 55 1 = g ∧ bits d 56 8 = b2 := by
  have h16 : d / 2 ^ 16 = b0 + 2 ^ 16 * (b1 + 2 ^ 8 * type + 2 ^ 12 * c + 2 ^ 13 * dpl +
    2 ^ 15 + 2 ^ 16 * l1 + 2 ^ 22 + 2 ^ 23 * g + 2 ^ 24 * b2) := by omega
  have h40 : d / 2 ^ 40 = type + 2 ^ 4 * c + 2 ^ 5 * dpl + 2 ^ 7 + 2 ^ 8 * l1 + 2 ^ 14 +
    2 ^ 15 * g + 2 ^ 16 * b2 := by omega
  have h44 : d / 2 ^ 44 = c + 2 * dpl + 2 ^ 3 + 2 ^ 4 * l1 + 2 ^ 10 + 2 ^ 11 * g + 2 ^ 12 * b2 := by
    omega
  have h45 : d / 2 ^ 45 = dpl + 2 ^ 2 + 2 ^ 3 * l1 + 2 ^ 9 + 2 ^ 10 * g + 2 ^ 11 * b2 := by omega
  have h47 : d / 2 ^ 47 = 1 + 2 * l1 + 2 ^ 7 + 2 ^ 8 * g + 2 ^ 9 * b2 := by omega
  have h48 : d / 2 ^ 48 = l1 + 2 ^ 6 + 2 ^ 7 * g + 2 ^ 8 * b2 := by omega
  have h52 : d / 2 ^ 52 = 2 ^ 2 + 2 ^ 3 * g + 2 ^ 4 * b2 := by omega
  have h55 : d / 2 ^ 55 = g + 2 * b2 := by omega
  have h56 : d / 2 ^ 56 = b2 := by omega
  unfold bits
  rw [h16, h40, h44, h45, h47, h48, h52, h55, h56]
  clear h16 h40 h44 h45 h47 h48 h52 h55 h56
  refine ⟨?_, ?_, ?_, ?_, ?_, ?_, ?_, ?_, ?_, ?_⟩ <;> omega

theorem decodeSeg_makeSegDesc {base limit type dpl : Nat} (cls : SegClass)
    (granularity : Granularity) (hbase : base < 2 ^ 32) (hlimit : limit < 2 ^ 20)
    (htype : type ≤ 15) (hdpl : dpl ≤ 3) :
    ∃ d, makeSegDesc base limit cls type dpl granularity = some d ∧
      decodeSeg d = some ⟨base, limit, cls, type, dpl, granularity⟩ := by
  refine ⟨_, makeSegDesc_eq cls granularity hlimit htype hdpl, ?_⟩
  obtain ⟨hl, hb, ht, hc, hp, hv, hl1, hz, hg, hb2⟩ := segFields (bits limit 0 16)
    (bits limit 16 4) (bits base 0 16) (bits base 16 8) (bits base 24 8)
    (Nat.mod_lt _ (Nat.two_pow_pos 16)) (Nat.mod_lt _ (Nat.two_pow_pos 4))
    (Nat.mod_lt _ (Nat.two_pow_pos 16)) (Nat.mod_lt _ (Nat.two_pow_pos 8))
    (Nat.mod_lt _ (Nat.two_pow_pos 8)) htype cls.toNat_le hdpl granularity.toNat_le rfl
  unfold decodeSeg
  rw [hl, hb, ht, hc, hp, hv, hl1, hz, hg, hb2, if_pos ⟨rfl, rfl⟩]
  have hbase' : bits base 0 16 + 2 ^ 16 * bits base 16 8 + 2 ^ 24 * bits base 24 8 = base := by
    unfold bits
    omega
  have hlimit' : bits limit 0 16 + 2 ^ 16 * bits limit 16 4 = limit := by
    unfold bits
    omega
  rw [hbase', hlimit']
  cases cls <;> cases granularity <;> rfl

/-- The segment that a data segment register gives access to, once code at level `cpl` has loaded
`sel`; nothing for a null selector or a fault. There is no local table. -/
def loadDs (gdt : Nat → Nat) (cpl sel : Nat) : Option SegDesc :=
  if sel / 4 % 2 = 1 ∨ SEL_CNT ≤ sel / 8 then none
  else do
    let s ← decodeSeg (gdt (sel / 8))
    if s.cls = .codeData ∧ (s.type < 8 ∨ s.type / 2 % 2 = 1) ∧
        (12 ≤ s.type ∨ max cpl (sel % 4) ≤ s.dpl) then
      some s
    else none

/-- A segment that is the whole address space. -/
def flatSeg (type dpl : Nat) : SegDesc := ⟨0, 0xfffff, .codeData, type, dpl, .page⟩

def flatSegs : List (Nat × SegDesc) :=
  [(1, flatSeg 10 0), (2, flatSeg 2 0), (3, flatSeg 10 3), (4, flatSeg 2 3)]

/-- The offset of the last byte. -/
def SegDesc.last (s : SegDesc) : Nat :=
  match s.granularity with
  | .byte => s.limit
  | .page => s.limit * 4096 + 4095

/-- The five descriptors of the table, and the null descriptor. -/
theorem gdtInit_spec {tss : Nat} (htss : tss < 2 ^ 32) :
    ∃ gdt, gdtInit tss = some gdt ∧ (∀ p ∈ flatSegs, decodeSeg (gdt p.1) = some p.2) ∧
      decodeSeg (gdt (SEL_TSS / 8)) = some ⟨tss, 0x67, .system, 9, 0, .byte⟩ ∧ gdt 0 = 0 := by
  have hflat : ∀ type dpl, type ≤ 15 → dpl ≤ 3 → ∃ d,
      makeSegDesc 0 0xfffff .codeData type dpl .page = some d ∧
      decodeSeg d = some (flatSeg type dpl) := by
    intro type dpl htype hdpl
    exact decodeSeg_makeSegDesc .codeData .page (by decide) (by decide) htype hdpl
  obtain ⟨kc, hkc, hkc'⟩ := hflat 10 0 (by decide) (by decide)
  obtain ⟨kd, hkd, hkd'⟩ := hflat 2 0 (by decide) (by decide)
  obtain ⟨uc, huc, huc'⟩ := hflat 10 3 (by decide) (by decide)
  obtain ⟨ud, hud, hud'⟩ := hflat 2 3 (by decide) (by decide)
  obtain ⟨ts, hts, hts'⟩ : ∃ d, makeSegDesc tss 0x67 .system 9 0 .byte = some d ∧
      decodeSeg d = some ⟨tss, 0x67, .system, 9, 0, .byte⟩ :=
    decodeSeg_makeSegDesc .system .byte htss (by decide) (by decide) (by decide)
  unfold gdtInit makeCodeDesc makeDataDesc makeTssDesc
  rw [hkc, hkd, huc, hud, hts]
  refine ⟨_, rfl, ?_, hts', rfl⟩
  intro p hp
  simp only [flatSegs, List.mem_cons, List.not_mem_nil, or_false] at hp
  rcases hp with rfl | rfl | rfl | rfl
  · exact hkc'
  · exact hkd'
  · exact huc'
  · exact hud'

/-- User code gets at the user segments only, the kernel at these and its own. A selector is
an index, the table it is for and a privilege level; of the five descriptors that there are,
two admit the level of user code. -/
theorem gdt_sound {tss : Nat} (htss : tss < 2 ^ 32) :
    ∃ gdt, gdtInit tss = some gdt ∧
      decodeSeg (gdt (SEL_TSS / 8)) = some ⟨tss, 0x67, .system, 9, 0, .byte⟩ ∧
      (∀ p ∈ flatSegs, decodeSeg (gdt p.1) = some p.2 ∧ p.2.base = 0 ∧ p.2.last = 2 ^ 32 - 1) ∧
      ∀ cpl sel s, loadDs gdt cpl sel = some s ↔
        (sel / 8, s) ∈ flatSegs ∧ sel / 4 % 2 = 0 ∧ cpl ≤ s.dpl ∧ sel % 4 ≤ s.dpl := by
  obtain ⟨gdt, hgdt, hflat, htask, hnull⟩ := gdtInit_spec htss
  refine ⟨gdt, hgdt, htask, fun p hp => ⟨hflat p hp, ?_⟩, fun cpl sel s => ?_⟩
  · exact (by decide : ∀ p ∈ flatSegs, p.2.base = 0 ∧ p.2.last = 2 ^ 32 - 1) p hp
  · constructor
    · intro h
      unfold loadDs at h
      split at h
      · exact absurd h (by simp)
      · rename_i hsel
        obtain ⟨s', hs', h⟩ := Option.bind_eq_some_iff.mp h
        split at h
        · rename_i hok
          obtain rfl := Option.some.inj h
          have hmem : (sel / 8, s') ∈ flatSegs := by
            have hidx : sel / 8 = 0 ∨ (∃ p ∈ flatSegs, p.1 = sel / 8) ∨ sel / 8 = SEL_TSS / 8 := by
              have hcount : sel / 8 < 6 := Nat.lt_of_not_le fun hle => hsel (.inr hle)
              generalize sel / 8 = i at hcount
              revert i
              decide
            rcases hidx with hz | ⟨p, hp, hpi⟩ | ht
            · have hno : decodeSeg 0 = none := by decide
              rw [hz, hnull, hno] at hs'
              exact absurd hs' (by simp)
            · rw [← hpi, hflat p hp] at hs'
              rw [← hpi, ← Option.some.inj hs']
              exact hp
            · rw [ht, htask] at hs'
              rw [← Option.some.inj hs'] at hok
              exact absurd hok.1 (by simp)
          have htype : ∀ p ∈ flatSegs, p.2.type < 12 := by decide
          have hlevel := hok.2.2.resolve_left (Nat.not_le_of_lt (htype _ hmem))
          refine ⟨hmem, by omega, ?_, ?_⟩
          · exact (Nat.le_max_left _ _).trans hlevel
          · exact (Nat.le_max_right _ _).trans hlevel
        · exact absurd h (by simp)
    · rintro ⟨hmem, hti, hcpl, hrpl⟩
      have hkind : ∀ p ∈ flatSegs, p.1 < SEL_CNT ∧ p.2.cls = .codeData ∧
          (p.2.type < 8 ∨ p.2.type / 2 % 2 = 1) := by decide
      obtain ⟨hidx, hcls, htype⟩ := hkind _ hmem
      unfold loadDs
      rw [if_neg (by omega), hflat _ hmem]
      exact if_pos ⟨hcls, htype, .inr (Nat.max_le.mpr ⟨hcpl, hrpl⟩)⟩

/-- User code cannot load the kernel's selectors. -/
theorem gdt_sound_kernel : ∃ gdt, gdtInit 0xc0103000 = some gdt ∧
    loadDs gdt 3 SEL_KDSEG.toNat = none ∧ loadDs gdt 3 SEL_KCSEG.toNat = none ∧
      loadDs gdt 3 SEL_UDSEG = some (flatSeg 2 3) := by
  have htss : 0xc0103000 < 2 ^ 32 := by decide
  obtain ⟨gdt, hgdt, _, _, hload⟩ := gdt_sound htss
  have hkernel : ∀ sel, sel / 8 = 1 ∨ sel / 8 = 2 → loadDs gdt 3 sel = none := by
    intro sel hsel
    have hlevels : ∀ p ∈ flatSegs, p.1 = 1 ∨ p.1 = 2 → p.2.dpl = 0 := by decide
    rw [Option.eq_none_iff_forall_ne_some]
    intro s hs
    obtain ⟨hmem, _, hcpl, _⟩ := (hload 3 sel s).mp hs
    exact absurd (hcpl.trans_eq (hlevels _ hmem hsel)) (by decide)
  refine ⟨gdt, hgdt, hkernel _ (by decide), hkernel _ (by decide), (hload 3 SEL_UDSEG _).mpr ?_⟩
  decide

end OsTools.Userprog

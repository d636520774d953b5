import OsTools.Threads.PallocSteps
/-!
# OsTools.Threads.PallocSafe

What holds of the page allocator in every order of steps. A page is held by the thread that
owns it, or by the one that is about to get it or to give it back (`Held`). The invariant
`Inv` says that a page is held once at most and that its bit is set. What a thread knows about
the map at each point of its loops is `At`: while it has the lock of a pool, the others can only
clear bits there.

## Proof shape

A step of a thread changes its own program counter and at most one bit. `Moves` is what all
others may rely on: with the lock of a pool held by somebody else, bits are only cleared
there. So what a thread has found out within the lock stays true (`Moves.known`): the bits
it found clear are clear, and in each run of pages that it passed by there was one that had
been set when it got the lock.

`Inv.step` is the lemma for all steps: what `t` holds after the step it held before, or the
page was free. `Inv.write`, `Inv.walk` and `Inv.goto` are its instances for the kinds of
steps, and every program counter has its own short lemma (`Inv.scan`, `Inv.mark`,
`Inv.clear`, ...). Pages change hands in two places, at the end of `palloc_get_multiple` and
at the beginning of `palloc_free_multiple`.
-/

namespace OsTools.Threads

open Kernel Vm

namespace Palloc

variable {ι : Type} {s s' : State ι} {t t' : ι} {user user' : Bool}
  {cnt i j k : Nat}

/-! ### The pages of both pools -/

/-- The pools are apart: the map of the user pool lies between them. -/
structure Pools (s : State ι) : Prop where
  placed : ∀ user, (s.pool user).Placed
  gap : (s.pool false).base + 4096 * (s.pool false).usedMap.bitCnt < (s.pool true).base

namespace Pools

theorem bitCnt_lt (h : Pools s) (user : Bool) : (s.map user).bitCnt < 2 ^ 32 :=
  (h.placed user).bitmap

theorem page_inj (h : Pools s) (hi : i < (s.map user).bitCnt) (hj : j < (s.map user').bitCnt)
    (heq : s.page user i = s.page user' j) : user = user' ∧ i = j := by
  have hgap := h.gap
  unfold State.page State.map PGSIZE at *
  cases user <;> cases user' <;> simp only [true_and, reduceCtorEq, false_and] <;> omega

/-- Behind a page comes the next one of the same pool, or none at all. -/
theorem page_succ (h : Pools s) (hi : i < (s.map user).bitCnt) (hj : j < (s.map user').bitCnt)
    (heq : s.page user i + PGSIZE = s.page user' j) : user' = user ∧ j = i + 1 := by
  have hgap := h.gap
  unfold State.page State.map PGSIZE at *
  cases user <;> cases user' <;> simp only [true_and, reduceCtorEq, false_and] <;> omega

theorem poolOf_page (h : Pools s) (hi : i < (s.map user).bitCnt) :
    poolOf s (s.page user i) = .ok user := by
  have hown : (s.pool user).pageFromPool (s.page user i) = true := (h.placed user).pageFromPool hi
  unfold poolOf
  cases user with
  | false => rw [if_pos hown]
  | true =>
      have hother : ¬ (s.pool false).pageFromPool (s.page true i) = true := by
        have hgap := h.gap
        have hk := (h.placed false).aligned
        have hu := (h.placed true).aligned
        unfold Pool.pageFromPool State.page pgNo PGSIZE
        simp only [decide_eq_true_eq]
        omega
      rw [if_neg hother, if_pos hown]

theorem index_page (h : Pools s) : pgNo (s.page user i) - pgNo (s.pool user).base = i := by
  have hbase := (h.placed user).aligned
  unfold State.page pgNo PGSIZE
  omega

theorem enter_eq (h : Pools s) (hle : i + cnt ≤ (s.map user).bitCnt) (k : Nat) :
    enter (s.map user) i cnt k = .ok () := by
  unfold enter
  rw [Bitmap.inRange_iff (h.bitCnt_lt user) hle]
  simp

end Pools

/-! ### What a thread holds -/

/-- The pages that a thread has in its hands within the allocator. -/
def Pc.Holds : Pc → Bool → Nat → Prop
  | .mark user _ i k, user', j => user' = user ∧ i ≤ j ∧ j < i + k
  | .release user cnt (some i), user', j => user' = user ∧ i ≤ j ∧ j < i + cnt
  | .check user cnt i _, user', j => user' = user ∧ i ≤ j ∧ j < i + cnt
  | .clear user cnt i k, user', j => user' = user ∧ i + k ≤ j ∧ j < i + cnt
  | _, _, _ => False

/-- Where the lock of the pool `user` is held. -/
def Pc.Inside : Pc → Bool → Prop
  | .scan user _ _ _, user' => user' = user
  | .mark user _ _ _, user' => user' = user
  | .release user _ _, user' => user' = user
  | _, _ => False

/-- A page is held by its owner, or by the thread that gets it or gives it back. -/
def Held (s : State ι) (t : ι) (user : Bool) (i : Nat) : Prop :=
  (i < (s.map user).bitCnt ∧ s.owned t (s.page user i)) ∨ (s.pc t).Holds user i

/-- A page of the run was in use when the thread got the lock. -/
def Taken (s : State ι) (t : ι) (i cnt : Nat) : Prop := ∃ j < cnt, s.atLock t (i + j) = true

/-- What a thread knows at each point. -/
def At (s : State ι) (t : ι) : Pc → Prop
  | .idle => True
  | .acquire _ cnt => 0 < cnt
  | .scan user cnt i k => i + cnt ≤ (s.map user).bitCnt ∧ k < cnt ∧
      (∀ j < k, (s.map user).bit (i + j) = false) ∧
      (∀ j, (s.map user).bit j = true → s.atLock t j = true) ∧ ∀ i' < i, Taken s t i' cnt
  | .mark user cnt i k => i + cnt ≤ (s.map user).bitCnt ∧ k < cnt ∧
      ∀ j, k ≤ j → j < cnt → (s.map user).bit (i + j) = false
  | .release user cnt (some i) => i + cnt ≤ (s.map user).bitCnt
  | .release user cnt none => ∀ i, i + cnt ≤ (s.map user).bitCnt → Taken s t i cnt
  | .null user cnt => 0 < cnt → ∀ i, i + cnt ≤ (s.map user).bitCnt → Taken s t i cnt
  | .check user cnt i k => i + cnt ≤ (s.map user).bitCnt ∧ k < cnt
  | .clear user cnt i k => i + cnt ≤ (s.map user).bitCnt ∧ k < cnt
  | .stopped => False

/-- The invariant. -/
structure Inv (s : State ι) : Prop where
  pools : Pools s
  pages : ∀ t p, s.owned t p → ∃ user i, i < (s.map user).bitCnt ∧ p = s.page user i
  used : ∀ t user i, Held s t user i → i < (s.map user).bitCnt ∧ (s.map user).bit i = true
  marked : ∀ user i, i < (s.map user).bitCnt → (s.map user).bit i = true → ∃ t, Held s t user i
  exclusive : ∀ t t' user i, Held s t user i → Held s t' user i → t = t'
  apart : ∀ t user i, i < (s.map user).bitCnt → s.owned t (s.page user i) →
    ¬ (s.pc t).Holds user i
  lock : ∀ t user, (s.pc t).Inside user ↔ s.lock user = some t
  known : ∀ t, At s t (s.pc t)

/-- Pages in a row that a thread owns are from one pool. -/
theorem Inv.region (h : Inv s) {pages : Nat} (hcnt : 0 < cnt)
    (hown : ∀ k < cnt, s.owned t (pages + PGSIZE * k)) :
    ∃ user i, i + cnt ≤ (s.map user).bitCnt ∧
      ∀ k < cnt, pages + PGSIZE * k = s.page user (i + k) := by
  obtain ⟨user, i, hi, hpage⟩ := h.pages t pages (hown 0 hcnt)
  have hrow : ∀ k < cnt, i + k < (s.map user).bitCnt ∧
      pages + PGSIZE * k = s.page user (i + k) := by
    intro k
    induction k with
    | zero => exact fun _ => ⟨hi, hpage⟩
    | succ k ih =>
        intro hk
        obtain ⟨hlt, hat⟩ := ih (Nat.lt_of_succ_lt hk)
        obtain ⟨user', j, hj, hnext⟩ := h.pages t _ (hown (k + 1) hk)
        have hstep : s.page user (i + k) + PGSIZE = s.page user' j := by
          rw [← hat, ← hnext, Nat.mul_succ, Nat.add_assoc]
        obtain ⟨rfl, rfl⟩ := h.pools.page_succ hlt hj hstep
        exact ⟨hj, hnext⟩
  have hlast := (hrow (cnt - 1) (by omega)).1
  exact ⟨user, i, by omega, fun k hk => (hrow k hk).2⟩

/-! ### What a step leaves as it is -/

/-- What holds of every step of the thread `t`. Only with the lock it sets bits. -/
structure Moves (s : State ι) (t : ι) (s' : State ι) : Prop where
  base : ∀ user, (s'.pool user).base = (s.pool user).base
  bitCnt : ∀ user, (s'.map user).bitCnt = (s.map user).bitCnt
  pc : ∀ t', t' ≠ t → s'.pc t' = s.pc t'
  owned : ∀ t', t' ≠ t → s'.owned t' = s.owned t'
  atLock : ∀ t', t' ≠ t → s'.atLock t' = s.atLock t'
  bits : ∀ user, s.lock user = some t ∨
    ∀ i, (s'.map user).bit i = true → (s.map user).bit i = true

namespace Moves

theorem page (hm : Moves s t s') (user : Bool) (i : Nat) : s'.page user i = s.page user i := by
  unfold State.page
  rw [hm.base]

theorem held (hm : Moves s t s') (hne : t' ≠ t) : Held s' t' user i ↔ Held s t' user i := by
  unfold Held
  rw [hm.bitCnt, hm.page, hm.pc t' hne, hm.owned t' hne]

theorem pools (hm : Moves s t s') (h : Pools s) : Pools s' where
  placed user := by
    obtain ⟨aligned, pos, fits⟩ := h.placed user
    have hbits : (s'.pool user).usedMap.bitCnt = (s.pool user).usedMap.bitCnt := hm.bitCnt user
    constructor <;> simpa only [hm.base, hbits]
  gap := by
    have hbits : (s'.pool false).usedMap.bitCnt = (s.pool false).usedMap.bitCnt := hm.bitCnt false
    rw [hm.base, hm.base, hbits]
    exact h.gap

theorem taken (hm : Moves s t s') (hne : t' ≠ t) (h : Taken s t' i cnt) : Taken s' t' i cnt := by
  unfold Taken at *
  rwa [hm.atLock t' hne]

/-- What another thread knows stays true: the bits of a pool that it has locked are at most
cleared. -/
theorem known (hm : Moves s t s') (hne : t' ≠ t) {pc : Pc}
    (hlock : ∀ user, pc.Inside user → s.lock user = some t') (h : At s t' pc) : At s' t' pc := by
  have hclear : ∀ {user}, pc.Inside user →
      ∀ i, (s'.map user).bit i = true → (s.map user).bit i = true := by
    intro user hin
    refine (hm.bits user).resolve_left fun hown => hne ?_
    rw [hlock user hin] at hown
    exact Option.some.inj hown
  have hfalse : ∀ {user}, pc.Inside user →
      ∀ i, (s.map user).bit i = false → (s'.map user).bit i = false := by
    intro user hin i hi
    cases hbit : (s'.map user).bit i with
    | false => rfl
    | true => rw [hclear hin i hbit] at hi; cases hi
  cases pc with
  | idle => trivial
  | acquire user cnt => exact h
  | scan user cnt i k =>
      obtain ⟨hle, hk, hrun, hat, hprev⟩ := h
      refine ⟨by rwa [hm.bitCnt], hk, fun j hj => hfalse rfl _ (hrun j hj), fun j hj => ?_,
        fun i' hi' => hm.taken hne (hprev i' hi')⟩
      rw [hm.atLock t' hne]
      exact hat j (hclear rfl j hj)
  | mark user cnt i k =>
      obtain ⟨hle, hk, hrun⟩ := h
      exact ⟨by rwa [hm.bitCnt], hk, fun j h₁ h₂ => hfalse rfl _ (hrun j h₁ h₂)⟩
  | release user cnt idx =>
      cases idx with
      | none =>
          intro i hi
          rw [hm.bitCnt] at hi
          exact hm.taken hne (h i hi)
      | some i =>
          show i + cnt ≤ (s'.map user).bitCnt
          rw [hm.bitCnt]
          exact h
  | null user cnt =>
      intro hcnt i hi
      rw [hm.bitCnt] at hi
      exact hm.taken hne (h hcnt i hi)
  | check user cnt i k => exact ⟨by rw [hm.bitCnt]; exact h.1, h.2⟩
  | clear user cnt i k => exact ⟨by rw [hm.bitCnt]; exact h.1, h.2⟩
  | stopped => exact h

end Moves

/-- The invariant after a step of `t`. What `t` holds then it held before, or the page was
free. -/
theorem Inv.step (h : Inv s) (hm : Moves s t s')
    (hpages : ∀ p, s'.owned t p → ∃ user i, i < (s.map user).bitCnt ∧ p = s.page user i)
    (hheld : ∀ user i, Held s' t user i →
      i < (s.map user).bitCnt ∧ (Held s t user i ∨ (s.map user).bit i = false))
    (hused : ∀ t' user i, Held s' t' user i → (s'.map user).bit i = true)
    (hmarked : ∀ user i, (s'.map user).bit i = true → Held s' t user i ∨
      ((s.map user).bit i = true ∧ (Held s t user i → Held s' t user i)))
    (hapart : ∀ user i, i < (s.map user).bitCnt → s'.owned t (s.page user i) →
      ¬ (s'.pc t).Holds user i)
    (hlock : ∀ t' user, (s'.pc t').Inside user ↔ s'.lock user = some t')
    (hknown : At s' t (s'.pc t)) : Inv s' where
  pools := hm.pools h.pools
  pages t' p hp := by
    simp only [hm.bitCnt, hm.page]
    by_cases hne : t' = t
    · exact hpages p (hne ▸ hp)
    · exact h.pages t' p (hm.owned t' hne ▸ hp)
  used t' user i hi := by
    refine ⟨?_, hused t' user i hi⟩
    rw [hm.bitCnt]
    by_cases hne : t' = t
    · exact (hheld user i (hne ▸ hi)).1
    · exact (h.used t' user i ((hm.held hne).mp hi)).1
  marked user i hlt hi := by
    rw [hm.bitCnt] at hlt
    rcases hmarked user i hi with hown | ⟨hbit, hkeep⟩
    · exact ⟨t, hown⟩
    · obtain ⟨t', ht'⟩ := h.marked user i hlt hbit
      by_cases hne : t' = t
      · exact ⟨t, hkeep (hne ▸ ht')⟩
      · exact ⟨t', (hm.held hne).mpr ht'⟩
  exclusive := by
    -- a thread that held the page before keeps the others from having found it free
    have hother : ∀ t' user i, t' ≠ t → Held s' t user i → ¬ Held s' t' user i := by
      intro t' user i hne hi hi'
      have hold := (hm.held hne).mp hi'
      rcases (hheld user i hi).2 with hown | hfree
      · exact hne (h.exclusive t' t user i hold hown)
      · rw [(h.used t' user i hold).2] at hfree
        cases hfree
    intro t₁ t₂ user i h₁ h₂
    by_cases hne₁ : t₁ = t
    · subst hne₁
      by_contra hne₂
      exact hother t₂ user i (Ne.symm hne₂) h₁ h₂
    · by_cases hne₂ : t₂ = t
      · subst hne₂
        exact absurd h₁ (hother t₁ user i hne₁ h₂)
      · exact h.exclusive t₁ t₂ user i ((hm.held hne₁).mp h₁) ((hm.held hne₂).mp h₂)
  apart t' user i hi hown := by
    rw [hm.bitCnt] at hi
    rw [hm.page] at hown
    by_cases hne : t' = t
    · subst hne
      exact hapart user i hi hown
    · rw [hm.owned t' hne] at hown
      rw [hm.pc t' hne]
      exact h.apart t' user i hi hown
  lock := hlock
  known t' := by
    by_cases hne : t' = t
    · subst hne
      exact hknown
    · rw [hm.pc t' hne]
      exact hm.known hne (fun user hin => (h.lock t' user).mp hin) (h.known t')

/-! ### The state after a step -/

theorem setMap_map (s : State ι) (user : Bool) (b : Bitmap) (user' : Bool) :
    (s.setMap user b).map user' = if user' = user then b else s.map user' := by
  unfold State.map State.setMap
  by_cases huser : user' = user
  · simp [huser]
  · simp [huser]

theorem setMap_base (s : State ι) (user : Bool) (b : Bitmap) (user' : Bool) :
    ((s.setMap user b).pool user').base = (s.pool user').base := by
  unfold State.setMap
  by_cases huser : user' = user
  · simp [huser]
  · simp [huser]

section Steps

variable [DecidableEq ι]

@[simp] theorem goto_pc_self (s : State ι) (t : ι) (pc : Pc) : (s.goto t pc).pc t = pc := by
  simp [State.goto]

theorem goto_pc_of_ne (hne : t' ≠ t) (pc : Pc) : (s.goto t pc).pc t' = s.pc t' := by
  simp [State.goto, hne]

@[simp] theorem goto_map (s : State ι) (t : ι) (pc : Pc) (user : Bool) :
    (s.goto t pc).map user = s.map user := rfl

@[simp] theorem goto_page (s : State ι) (t : ι) (pc : Pc) (user : Bool) (i : Nat) :
    (s.goto t pc).page user i = s.page user i := rfl

/-- The lock is as it was, and so is who is inside. -/
theorem Inv.lock_goto (h : Inv s) {pc : Pc} (hin : ∀ user, pc.Inside user ↔ (s.pc t).Inside user)
    (t' : ι) (user : Bool) : ((s.goto t pc).pc t').Inside user ↔ s.lock user = some t' := by
  by_cases hne : t' = t
  · rw [hne, goto_pc_self, hin]
    exact h.lock t user
  · rw [goto_pc_of_ne hne]
    exact h.lock t' user

/-- `t` leaves, and the lock is free. -/
theorem Inv.lock_release (h : Inv s) {pc : Pc} (hin : ∀ user', (s.pc t).Inside user' ↔ user' = user)
    (hout : ∀ user, ¬ pc.Inside user) (t' : ι) (user' : Bool) :
    ((s.goto t pc).pc t').Inside user' ↔ Function.update s.lock user none user' = some t' := by
  by_cases hne : t' = t
  · subst hne
    rw [goto_pc_self]
    refine ⟨fun hpc => absurd hpc (hout user'), fun hlock => ?_⟩
    by_cases huser : user' = user
    · rw [huser, Function.update_self] at hlock
      cases hlock
    · rw [Function.update_of_ne huser, ← h.lock, hin] at hlock
      exact absurd hlock huser
  · rw [goto_pc_of_ne hne, h.lock]
    by_cases huser : user' = user
    · have hown : s.lock user = some t := (h.lock t user).mp ((hin user).mpr rfl)
      rw [huser, Function.update_self, hown]
      refine ⟨fun heq => absurd (Option.some.inj heq).symm hne, fun heq => by cases heq⟩
    · rw [Function.update_of_ne huser]

/-- `t` gets the lock. -/
theorem Inv.lock_acquire (h : Inv s) {pc : Pc} (hfree : s.lock user = none)
    (hout : ∀ user, ¬ (s.pc t).Inside user) (hin : ∀ user', pc.Inside user' ↔ user' = user) (t' : ι)
    (user' : Bool) :
    ((s.goto t pc).pc t').Inside user' ↔ Function.update s.lock user (some t) user' = some t' := by
  by_cases huser : user' = user
  · rw [huser, Function.update_self, Option.some.injEq]
    by_cases hne : t' = t
    · rw [hne, goto_pc_self, hin]
      exact iff_of_true rfl rfl
    · rw [goto_pc_of_ne hne, h.lock, hfree]
      exact iff_of_false nofun fun heq => hne heq.symm
  · rw [Function.update_of_ne huser]
    by_cases hne : t' = t
    · rw [hne, goto_pc_self, hin, ← h.lock]
      exact iff_of_false huser (hout user')
    · rw [goto_pc_of_ne hne]
      exact h.lock t' user'

/-- A step of `t` that leaves the maps alone: `t` holds what it held before. -/
theorem Inv.pass (h : Inv s) (hm : Moves s t s') (hmap : s'.map = s.map)
    (hpages : ∀ p, s'.owned t p → ∃ user i, i < (s.map user).bitCnt ∧ p = s.page user i)
    (hheld : ∀ user i, Held s' t user i ↔ Held s t user i)
    (hapart : ∀ user i, i < (s.map user).bitCnt → s'.owned t (s.page user i) →
      ¬ (s'.pc t).Holds user i)
    (hlock : ∀ t' user, (s'.pc t').Inside user ↔ s'.lock user = some t')
    (hknown : At s' t (s'.pc t)) : Inv s' := by
  refine h.step hm hpages (fun user i hi => ?_) (fun t' user i hi => ?_) (fun user i hi => ?_)
    hapart hlock hknown
  · have hold := (hheld user i).mp hi
    exact ⟨(h.used t user i hold).1, Or.inl hold⟩
  · rw [hmap]
    by_cases hne : t' = t
    · exact (h.used t user i ((hheld user i).mp (hne ▸ hi))).2
    · exact (h.used t' user i ((hm.held hne).mp hi)).2
  · rw [hmap] at hi
    exact Or.inr ⟨hi, (hheld user i).mpr⟩

/-- A step of `t` that leaves the maps and the owners alone. -/
theorem Inv.walk (h : Inv s) {pc : Pc} {lock : Bool → Option ι} {atLock : ι → Nat → Bool}
    (hatLock : ∀ t', t' ≠ t → atLock t' = s.atLock t')
    (hholds : ∀ user i, pc.Holds user i ↔ (s.pc t).Holds user i)
    (hlock : ∀ t' user, ((s.goto t pc).pc t').Inside user ↔ lock user = some t')
    (hknown : At { s.goto t pc with lock, atLock } t pc) :
    Inv { s.goto t pc with lock, atLock } := by
  have hm : Moves s t { s.goto t pc with lock, atLock } :=
    ⟨fun _ => rfl, fun _ => rfl, fun t' hne => goto_pc_of_ne hne pc, fun _ _ => rfl, hatLock,
      fun _ => Or.inr fun _ hbit => hbit⟩
  refine h.pass hm rfl (h.pages t) (fun user i => ?_) (fun user i hi hown hpc => ?_) hlock ?_
  · unfold Held
    rw [← hholds]
    show _ ∨ ((s.goto t pc).pc t).Holds user i ↔ _
    rw [goto_pc_self]
    exact Iff.rfl
  · refine h.apart t user i hi hown ((hholds user i).mp ?_)
    rwa [← goto_pc_self s t pc]
  · show At _ t ((s.goto t pc).pc t)
    rw [goto_pc_self]
    exact hknown

/-- `t` goes on, and nothing else changes. -/
theorem Inv.goto (h : Inv s) {pc : Pc}
    (hholds : ∀ user i, pc.Holds user i ↔ (s.pc t).Holds user i)
    (hin : ∀ user, pc.Inside user ↔ (s.pc t).Inside user) (hknown : At s t pc) :
    Inv (s.goto t pc) := by
  have hknown : At (s.goto t pc) t pc := by cases pc <;> exact hknown
  exact @Inv.walk ι s t _ h pc s.lock s.atLock (fun _ _ => rfl) hholds (h.lock_goto hin) hknown

/-- A write of the bit `idx` changes no other bit of either pool. -/
theorem bit_setMap_of_ne {b : Bitmap} {idx : Nat} {value : Bool} {pc : Pc}
    (hbit : ∀ j, b.bit j = if j = idx then value else (s.map user).bit j) {user' : Bool} {j : Nat}
    (hne : ¬ (user' = user ∧ j = idx)) :
    (((s.setMap user b).goto t pc).map user').bit j = (s.map user').bit j := by
  have hmap : ((s.setMap user b).goto t pc).map user' = if user' = user then b else s.map user' :=
    setMap_map s user b user'
  rw [hmap]
  split_ifs with huser
  · rw [hbit, if_neg fun hj => hne ⟨huser, hj⟩, huser]
  · rfl

/-- Such a write is a step of `t`, if it has the lock wherever it sets the bit. -/
theorem moves_setMap {b : Bitmap} {idx : Nat} {value : Bool} {pc : Pc}
    (hcnt : b.bitCnt = (s.map user).bitCnt)
    (hbit : ∀ j, b.bit j = if j = idx then value else (s.map user).bit j)
    (hset : value = true → s.lock user = some t) : Moves s t ((s.setMap user b).goto t pc) := by
  have hmap : ∀ user', ((s.setMap user b).goto t pc).map user' =
      if user' = user then b else s.map user' := setMap_map s user b
  refine ⟨setMap_base s user b, fun user' => ?_, fun t' hne => goto_pc_of_ne hne pc, fun _ _ => rfl,
    fun _ _ => rfl, fun user' => ?_⟩
  · rw [hmap]
    split_ifs with huser
    · rw [hcnt, huser]
    · rfl
  · cases value with
    | true =>
        by_cases huser : user' = user
        · exact Or.inl (huser ▸ hset rfl)
        · refine Or.inr fun j hj => ?_
          rwa [bit_setMap_of_ne hbit fun heq => huser heq.1] at hj
    | false =>
        refine Or.inr fun j hj => ?_
        by_cases heq : user' = user ∧ j = idx
        · rw [hmap, if_pos heq.1, hbit, if_pos heq.2] at hj
          cases hj
        · rwa [bit_setMap_of_ne hbit heq] at hj

/-- `t` sets a bit of the pool that it has locked, or clears one of its own. Setting takes a
page that nobody holds into the thread's hands, and clearing lets go of one. The other bits,
which other threads may be changing without the lock, are left as they are; this is where it
matters that a step changes one bit. -/
theorem Inv.write (h : Inv s) {b : Bitmap} {idx : Nat} {value : Bool} {pc : Pc}
    (hidx : idx < (s.map user).bitCnt) (hcnt : b.bitCnt = (s.map user).bitCnt)
    (hbit : ∀ j, b.bit j = if j = idx then value else (s.map user).bit j)
    (hset : value = true → s.lock user = some t ∧ (s.map user).bit idx = false ∧
      pc.Holds user idx)
    (hclear : value = false → (s.pc t).Holds user idx ∧ ¬ pc.Holds user idx)
    (hrest : ∀ user' j, ¬ (user' = user ∧ j = idx) →
      (pc.Holds user' j ↔ (s.pc t).Holds user' j))
    (hin : ∀ user, pc.Inside user ↔ (s.pc t).Inside user)
    (hknown : At ((s.setMap user b).goto t pc) t pc) : Inv ((s.setMap user b).goto t pc) := by
  have hmap : ∀ user', ((s.setMap user b).goto t pc).map user' =
      if user' = user then b else s.map user' := setMap_map s user b
  have hm : Moves s t ((s.setMap user b).goto t pc) :=
    moves_setMap hcnt hbit fun hvalue => (hset hvalue).1
  have hheld : ∀ user' j, Held ((s.setMap user b).goto t pc) t user' j ↔
      (j < (s.map user').bitCnt ∧ s.owned t (s.page user' j)) ∨ pc.Holds user' j := by
    intro user' j
    unfold Held
    rw [hm.bitCnt, hm.page, goto_pc_self]
    exact Iff.rfl
  have hsame' : ∀ user' j, ¬ (user' = user ∧ j = idx) →
      (Held ((s.setMap user b).goto t pc) t user' j ↔ Held s t user' j) := by
    intro user' j hne
    rw [hheld, hrest user' j hne]
    exact Iff.rfl
  refine h.step hm (h.pages t) (fun user' j hj => ?_) (fun t' user' j hj => ?_)
    (fun user' j hj => ?_) (fun user' j hj hown hpc => ?_) (h.lock_goto hin) ?_
  · by_cases heq : user' = user ∧ j = idx
    · obtain ⟨rfl, rfl⟩ := heq
      refine ⟨hidx, ?_⟩
      cases value with
      | true => exact Or.inr (hset rfl).2.1
      | false => exact Or.inl (Or.inr (hclear rfl).1)
    · have hold := (hsame' user' j heq).mp hj
      exact ⟨(h.used t user' j hold).1, Or.inl hold⟩
  · by_cases heq : user' = user ∧ j = idx
    · obtain ⟨rfl, rfl⟩ := heq
      rw [hmap, if_pos rfl, hbit, if_pos rfl]
      cases value with
      | true => rfl
      | false =>
          -- the bit that is cleared stands for a page that nobody holds after the step
          obtain ⟨hheldBefore, hnot⟩ := hclear rfl
          by_cases hne : t' = t
          · subst hne
            rcases (hheld user' j).mp hj with hown | hpc
            · exact absurd hheldBefore (h.apart t' user' j hown.1 hown.2)
            · exact absurd hpc hnot
          · exact absurd (h.exclusive t' t user' j ((hm.held hne).mp hj) (Or.inr hheldBefore)) hne
    · rw [bit_setMap_of_ne hbit heq]
      by_cases hne : t' = t
      · subst hne
        exact (h.used t' user' j ((hsame' user' j heq).mp hj)).2
      · exact (h.used t' user' j ((hm.held hne).mp hj)).2
  · by_cases heq : user' = user ∧ j = idx
    · obtain ⟨rfl, rfl⟩ := heq
      cases value with
      | true => exact Or.inl ((hheld user' j).mpr (Or.inr (hset rfl).2.2))
      | false =>
          rw [hmap, if_pos rfl, hbit, if_pos rfl] at hj
          cases hj
    · rw [bit_setMap_of_ne hbit heq] at hj
      exact Or.inr ⟨hj, (hsame' user' j heq).mpr⟩
  · rw [goto_pc_self] at hpc
    by_cases heq : user' = user ∧ j = idx
    · obtain ⟨rfl, rfl⟩ := heq
      cases value with
      | true =>
          have hfree := (hset rfl).2.1
          rw [(h.used t user' j (Or.inl ⟨hj, hown⟩)).2] at hfree
          cases hfree
      | false => exact (hclear rfl).2 hpc
    · exact h.apart t user' j hj hown ((hrest user' j heq).mp hpc)
  · rw [goto_pc_self]
    exact hknown

/-! ### Getting pages -/

theorem Inv.get (h : Inv s) (hpc : s.pc t = .idle) (user : Bool) (cnt : Nat) :
    Inv (s.goto t (if cnt = 0 then .null user cnt else .acquire user cnt)) := by
  by_cases hcnt : cnt = 0
  · rw [if_pos hcnt]
    exact h.goto (fun _ _ => by rw [hpc]; rfl) (fun _ => by rw [hpc]; rfl)
      fun hpos => absurd hcnt hpos.ne'
  · rw [if_neg hcnt]
    exact h.goto (fun _ _ => by rw [hpc]; rfl) (fun _ => by rw [hpc]; rfl)
      (Nat.pos_of_ne_zero hcnt)

/-- The lock of the pool is taken. The scan begins with what the bits are at that time, unless
there are not as many pages as were asked for. -/
theorem Inv.acquire (h : Inv s) (hpc : s.pc t = .acquire user cnt) (hlock : s.lock user = none) :
    Inv { s.goto t (if cnt ≤ (s.map user).bitCnt then .scan user cnt 0 0
        else .release user cnt none) with
      lock := Function.update s.lock user (some t)
      atLock := Function.update s.atLock t (s.map user).bit } := by
  have hpos : 0 < cnt := by
    have hknown := h.known t
    rwa [hpc] at hknown
  have hatLock : ∀ t', t' ≠ t →
      Function.update s.atLock t (s.map user).bit t' = s.atLock t' :=
    fun t' hne => Function.update_of_ne hne _ _
  have hout : ∀ user, ¬ (s.pc t).Inside user := by
    intro user
    rw [hpc]
    exact id
  by_cases hcnt : cnt ≤ (s.map user).bitCnt
  · rw [if_pos hcnt]
    refine h.walk hatLock (fun _ _ => by rw [hpc]; rfl)
      (h.lock_acquire hlock hout fun user' => Iff.rfl) ⟨by rwa [Nat.zero_add], hpos, nofun, ?_, nofun⟩
    intro j hj
    show Function.update s.atLock t (s.map user).bit t j = true
    rwa [Function.update_self]
  · rw [if_neg hcnt]
    refine h.walk hatLock (fun _ _ => by rw [hpc]; rfl)
      (h.lock_acquire hlock hout fun user' => Iff.rfl) fun i hi => absurd hi ?_
    show ¬ i + cnt ≤ (s.map user).bitCnt
    omega

/-- A step of the scan looks at one bit. Bits that were seen to be free may be cleared but not
set meanwhile, because setting needs the lock. -/
theorem Inv.scan (h : Inv s) (hpc : s.pc t = .scan user cnt i k) :
    ∃ s', advance s t = .ok s' ∧ Inv s' := by
  have hknown := h.known t
  rw [hpc] at hknown
  obtain ⟨hle, hk, hrun, hat, hprev⟩ := hknown
  refine ⟨s.goto t (scanNext (s.map user).bitCnt user cnt i k ((s.map user).bit (i + k))), ?_, ?_⟩
  · unfold advance
    rw [hpc]
    dsimp only
    rw [h.pools.enter_eq hle, ok_bind, Bitmap.test_eq (by omega), ok_bind]
  · unfold scanNext
    cases hbit : (s.map user).bit (i + k) with
    | true =>
        have hnext : ∀ i' < i + 1, Taken s t i' cnt := by
          intro i' hi'
          rcases Nat.lt_succ_iff_lt_or_eq.mp hi' with hlt | rfl
          · exact hprev i' hlt
          · exact ⟨k, hk, hat _ hbit⟩
        rw [if_pos rfl]
        by_cases hlast : i + 1 ≤ (s.map user).bitCnt - cnt
        · rw [if_pos hlast]
          refine h.goto (fun _ _ => by rw [hpc]; rfl) (fun _ => by rw [hpc]; rfl)
            ⟨by omega, by omega, nofun, hat, hnext⟩
        · rw [if_neg hlast]
          refine h.goto (fun _ _ => by rw [hpc]; rfl) (fun _ => by rw [hpc]; rfl) fun i' hi' => ?_
          exact hnext i' (by omega)
    | false =>
        have hrun : ∀ j < k + 1, (s.map user).bit (i + j) = false := by
          intro j hj
          rcases Nat.lt_succ_iff_lt_or_eq.mp hj with hlt | rfl
          · exact hrun j hlt
          · exact hbit
        rw [if_neg Bool.false_ne_true]
        by_cases hlast : k + 1 < cnt
        · rw [if_pos hlast]
          exact h.goto (fun _ _ => by rw [hpc]; rfl) (fun _ => by rw [hpc]; rfl)
            ⟨hle, hlast, hrun, hat, hprev⟩
        · rw [if_neg hlast]
          refine h.goto (fun _ j => ?_) (fun _ => by rw [hpc]; rfl)
            ⟨hle, by omega, fun j _ hj => hrun j (by omega)⟩
          rw [hpc]
          refine ⟨fun ⟨_, hlo, hhi⟩ => ?_, False.elim⟩
          omega

theorem Inv.releaseNone (h : Inv s) (hpc : s.pc t = .release user cnt none) :
    ∃ s', advance s t = .ok s' ∧ Inv s' := by
  have hknown := h.known t
  rw [hpc] at hknown
  refine ⟨{ s.goto t (.null user cnt) with lock := Function.update s.lock user none }, ?_, ?_⟩
  · unfold advance
    rw [hpc]
  · refine @Inv.walk ι s t _ h (.null user cnt) _ s.atLock (fun _ _ => rfl)
      (fun _ _ => by rw [hpc]; rfl) (h.lock_release (fun user' => ?_) fun _ => id) fun _ => hknown
    rw [hpc]
    exact Iff.rfl

theorem Inv.null (h : Inv s) (hpc : s.pc t = .null user cnt) :
    ∃ s', advance s t = .ok s' ∧ Inv s' := by
  refine ⟨s.goto t .idle, ?_, h.goto (fun _ _ => by rw [hpc]; rfl) (fun _ => by rw [hpc]; rfl) trivial⟩
  unfold advance
  rw [hpc]

/-- A step of the marking sets one bit of the group that the scan has found; it is still free,
since the lock is held. -/
theorem Inv.mark (h : Inv s) (hpc : s.pc t = .mark user cnt i k) :
    ∃ s', advance s t = .ok s' ∧ Inv s' := by
  have hknown := h.known t
  rw [hpc] at hknown
  obtain ⟨hle, hk, hrun⟩ := hknown
  obtain ⟨b, hset, hcnt, hbit⟩ := @Bitmap.set_spec (s.map user) (i + k) (by omega) true
  have hown : s.lock user = some t := by
    rw [← h.lock, hpc]
    rfl
  refine ⟨(s.setMap user b).goto t
    (if k + 1 < cnt then .mark user cnt i (k + 1) else .release user cnt (some i)), ?_, ?_⟩
  · unfold advance
    rw [hpc]
    dsimp only
    rw [h.pools.enter_eq hle, ok_bind, hset, ok_bind]
  · have hrest : ∀ user' j, ¬ (user' = user ∧ j = i + k) →
        ((user' = user ∧ i ≤ j ∧ j < i + (k + 1)) ↔ (s.pc t).Holds user' j) := by
      intro user' j hne
      rw [hpc]
      show _ ↔ user' = user ∧ i ≤ j ∧ j < i + k
      constructor
      · rintro ⟨huser, hlo, hhi⟩
        have hne : j ≠ i + k := fun hj => hne ⟨huser, hj⟩
        exact ⟨huser, hlo, by omega⟩
      · rintro ⟨huser, hlo, hhi⟩
        exact ⟨huser, hlo, by omega⟩
    have hfree : (s.map user).bit (i + k) = false := hrun k (Nat.le_refl k) hk
    by_cases hlast : k + 1 < cnt
    · rw [if_pos hlast]
      refine h.write (by omega) hcnt hbit (fun _ => ⟨hown, hfree, rfl, by omega, by omega⟩) nofun
        hrest (fun _ => by rw [hpc]; rfl) ?_
      simp only [At, goto_map, setMap_map, ↓reduceIte, hcnt]
      refine ⟨hle, hlast, fun j hlo hhi => ?_⟩
      rw [hbit, if_neg (by omega)]
      exact hrun j (by omega) hhi
    · rw [if_neg hlast]
      have hlen : k + 1 = cnt := by omega
      rw [hlen] at hrest
      refine h.write (by omega) hcnt hbit (fun _ => ⟨hown, hfree, rfl, by omega, by omega⟩) nofun
        hrest (fun _ => by rw [hpc]; rfl) ?_
      simp only [At, goto_map, setMap_map, ↓reduceIte, hcnt]
      exact hle

/-- A step of freeing clears the bit of one page, which the thread still has in its hands. -/
theorem Inv.clear (h : Inv s) (hpc : s.pc t = .clear user cnt i k) :
    ∃ s', advance s t = .ok s' ∧ Inv s' := by
  have hknown := h.known t
  rw [hpc] at hknown
  obtain ⟨hle, hk⟩ := hknown
  obtain ⟨b, hset, hcnt, hbit⟩ := @Bitmap.set_spec (s.map user) (i + k) (by omega) false
  have hholds : (s.pc t).Holds user (i + k) := by
    rw [hpc]
    exact ⟨rfl, Nat.le_refl _, by omega⟩
  refine ⟨(s.setMap user b).goto t
    (if k + 1 < cnt then .clear user cnt i (k + 1) else .idle), ?_, ?_⟩
  · unfold advance
    rw [hpc]
    dsimp only
    rw [h.pools.enter_eq hle, ok_bind, hset, ok_bind]
  · by_cases hlast : k + 1 < cnt
    · rw [if_pos hlast]
      refine h.write (by omega) hcnt hbit nofun (fun _ => ⟨hholds, ?_⟩) (fun user' j hne => ?_)
        (fun _ => by rw [hpc]; rfl) ?_
      · rintro ⟨-, hlo, -⟩
        omega
      · rw [hpc]
        show user' = user ∧ i + (k + 1) ≤ j ∧ _ ↔ user' = user ∧ i + k ≤ j ∧ _
        constructor
        · rintro ⟨huser, hlo, hhi⟩
          exact ⟨huser, by omega, hhi⟩
        · rintro ⟨huser, hlo, hhi⟩
          have hne : j ≠ i + k := fun hj => hne ⟨huser, hj⟩
          exact ⟨huser, by omega, hhi⟩
      · simp only [At, goto_map, setMap_map, ↓reduceIte, hcnt]
        exact ⟨hle, hlast⟩
    · rw [if_neg hlast]
      refine h.write (by omega) hcnt hbit nofun (fun _ => ⟨hholds, id⟩) (fun user' j hne => ?_)
        (fun _ => by rw [hpc]; rfl) trivial
      rw [hpc]
      refine ⟨False.elim, fun ⟨huser, hlo, hhi⟩ => hne ⟨huser, ?_⟩⟩
      omega

theorem Inv.check (h : Inv s) (hpc : s.pc t = .check user cnt i k) :
    ∃ s', advance s t = .ok s' ∧ Inv s' := by
  have hknown := h.known t
  rw [hpc] at hknown
  obtain ⟨hle, hk⟩ := hknown
  have hused : (s.map user).bit (i + k) = true := by
    refine (h.used t user (i + k) (Or.inr ?_)).2
    rw [hpc]
    exact ⟨rfl, by omega, by omega⟩
  refine ⟨s.goto t (if k + 1 < cnt then .check user cnt i (k + 1) else .clear user cnt i 0), ?_, ?_⟩
  · unfold advance
    rw [hpc]
    dsimp only
    rw [h.pools.enter_eq hle, ok_bind, Bitmap.test_eq (by omega), ok_bind, hused, if_pos rfl]
  · by_cases hlast : k + 1 < cnt
    · rw [if_pos hlast]
      exact h.goto (fun _ _ => by rw [hpc]; rfl) (fun _ => by rw [hpc]; rfl) ⟨hle, hlast⟩
    · rw [if_neg hlast]
      exact h.goto (fun _ _ => by rw [hpc]; rfl) (fun _ => by rw [hpc]; rfl) ⟨hle, by omega⟩

/-- The pages of the group pass from the thread's hands into its ownership. The lock is
released, with all the bits of the group set. -/
theorem Inv.releaseSome (h : Inv s) (hpc : s.pc t = .release user cnt (some i)) :
    ∃ s', advance s t = .ok s' ∧ Inv s' := by
  have hle := h.known t
  rw [hpc] at hle
  have hholds : ∀ k < cnt, Held s t user (i + k) := by
    intro k hk
    refine Or.inr ?_
    rw [hpc]
    exact ⟨rfl, by omega, by omega⟩
  obtain ⟨s', hs'⟩ : ∃ s', s' = ({ s.goto t .idle with
      lock := Function.update s.lock user none
      owned := Function.update s.owned t fun page =>
        s.owned t page ∨ ∃ k < cnt, page = s.page user (i + k) } : State ι) := ⟨_, rfl⟩
  have hm : Moves s t s' := by
    rw [hs']
    exact ⟨fun _ => rfl, fun _ => rfl, fun t' hne => goto_pc_of_ne hne _,
      fun t' hne => Function.update_of_ne hne _ _, fun _ _ => rfl, fun _ => Or.inr fun _ hj => hj⟩
  have hpc' : s'.pc t = .idle := by
    rw [hs']
    exact goto_pc_self s t .idle
  have howned : ∀ page, s'.owned t page ↔
      s.owned t page ∨ ∃ k < cnt, page = s.page user (i + k) := by
    intro page
    rw [hs']
    show Function.update s.owned t _ t page ↔ _
    rw [Function.update_self]
  refine ⟨s', ?_, h.pass hm (by rw [hs']; rfl) (fun page hpage => ?_) (fun user' j => ?_)
    (fun user' j _ _ => ?_) ?_ ?_⟩
  · unfold advance
    rw [hpc, hs']
  · rcases (howned page).mp hpage with hold | ⟨k, hk, rfl⟩
    · exact h.pages t page hold
    · exact ⟨user, i + k, (h.used t user _ (hholds k hk)).1, rfl⟩
  · constructor
    · intro hj
      unfold Held at hj
      rw [hm.bitCnt, hm.page, howned, hpc'] at hj
      rcases hj with ⟨hlt, hown | ⟨k, hk, heq⟩⟩ | hnone
      · exact Or.inl ⟨hlt, hown⟩
      · -- the pages that the call returns are those whose bits it has set
        obtain ⟨rfl, rfl⟩ := h.pools.page_inj hlt (h.used t user _ (hholds k hk)).1 heq
        exact hholds k hk
      · exact hnone.elim
    · intro hj
      have hlt := (h.used t user' j hj).1
      unfold Held at hj ⊢
      rw [hm.bitCnt, hm.page, howned]
      rw [hpc] at hj
      rcases hj with ⟨-, hown⟩ | ⟨rfl, hlo, hhi⟩
      · exact Or.inl ⟨hlt, Or.inl hown⟩
      · exact Or.inl ⟨hlt, Or.inr ⟨j - i, by omega, by rw [Nat.add_sub_cancel' hlo]⟩⟩
  · rw [hpc']
    exact id
  · rw [hs']
    refine h.lock_release (fun user' => ?_) fun _ => id
    rw [hpc]
    exact Iff.rfl
  · rw [hpc']
    trivial

/-! ### Giving pages back -/

/-- The pages of the region pass from the thread's ownership into its hands, and it will clear
their bits without the lock. A null pointer or no pages end the call at once. -/
theorem Inv.free (h : Inv s) {pages : Nat} (hpc : s.pc t = .idle) (hfrees : Frees s t pages cnt) :
    ∃ s', freeCall s t pages cnt = .ok s' ∧ Inv s' := by
  obtain ⟨halign, hown⟩ := hfrees
  unfold freeCall
  rw [if_neg (not_not.mpr halign)]
  by_cases hnone : pages = 0 ∨ cnt = 0
  · rw [if_pos hnone]
    -- `palloc_free_multiple` returns at once
    exact ⟨s, rfl, h⟩
  · rw [if_neg hnone]
    rw [not_or] at hnone
    have hown := hown.resolve_left hnone.1
    have hcnt : 0 < cnt := Nat.pos_of_ne_zero hnone.2
    obtain ⟨user, i, hle, hrow⟩ := h.region hcnt hown
    have hpages : pages = s.page user i := hrow 0 hcnt
    rw [hpages, h.pools.poolOf_page (by omega), ok_bind, h.pools.index_page]
    obtain ⟨s', hs'⟩ : ∃ s', s' = ({ s.goto t (.check user cnt i 0) with
        owned := Function.update s.owned t fun page =>
          s.owned t page ∧ ∀ k < cnt, page ≠ s.page user i + PGSIZE * k } : State ι) := ⟨_, rfl⟩
    have hm : Moves s t s' := by
      rw [hs']
      exact ⟨fun _ => rfl, fun _ => rfl, fun t' hne => goto_pc_of_ne hne _,
        fun t' hne => Function.update_of_ne hne _ _, fun _ _ => rfl, fun _ => Or.inr fun _ hj => hj⟩
    have hpc' : s'.pc t = .check user cnt i 0 := by
      rw [hs']
      exact goto_pc_self s t _
    have howned : ∀ page, s'.owned t page ↔
        s.owned t page ∧ ∀ k < cnt, page ≠ s.page user i + PGSIZE * k := by
      intro page
      rw [hs']
      show Function.update s.owned t _ t page ↔ _
      rw [Function.update_self]
    refine ⟨s', by rw [hs'], h.pass hm (by rw [hs']; rfl) (fun page hpage => ?_)
      (fun user' j => ?_) (fun user' j hj hmine hholds => ?_) ?_ ?_⟩
    · exact h.pages t page ((howned page).mp hpage).1
    · constructor
      · intro hj
        unfold Held at hj
        rw [hm.bitCnt, hm.page, howned, hpc'] at hj
        rcases hj with ⟨hlt, hmine, -⟩ | ⟨rfl, hlo, hhi⟩
        · exact Or.inl ⟨hlt, hmine⟩
        · refine Or.inl ⟨by omega, ?_⟩
          have hpage := hown (j - i) (by omega)
          rwa [hrow (j - i) (by omega), Nat.add_sub_cancel' hlo] at hpage
      · intro hj
        unfold Held at hj ⊢
        rw [hm.bitCnt, hm.page, howned, hpc']
        rw [hpc] at hj
        obtain ⟨hlt, hmine⟩ := hj.resolve_right id
        -- a page of the thread is now either on its way back or still its own
        by_cases hrange : ∃ k < cnt, s.page user' j = s.page user i + PGSIZE * k
        · obtain ⟨k, hk, heq⟩ := hrange
          rw [← hpages, hrow k hk] at heq
          obtain ⟨rfl, rfl⟩ := h.pools.page_inj hlt (by omega) heq
          exact Or.inr ⟨rfl, by omega, by omega⟩
        · exact Or.inl ⟨hlt, hmine, fun k hk heq => hrange ⟨k, hk, heq⟩⟩
    · rw [hpc'] at hholds
      obtain ⟨rfl, hlo, hhi⟩ := hholds
      refine ((howned _).mp hmine).2 (j - i) (by omega) ?_
      rw [← hpages, hrow (j - i) (by omega), Nat.add_sub_cancel' hlo]
    · rw [hs']
      refine h.lock_goto fun user' => ?_
      rw [hpc]
      exact Iff.rfl
    · rw [hpc']
      refine ⟨?_, hcnt⟩
      rw [hm.bitCnt]
      exact hle

/-! ### All runs -/

/-- Whatever a thread is at within the allocator, it does not fail. -/
theorem Inv.advance (h : Inv s) (t : ι) : ∃ s', advance s t = .ok s' ∧ Inv s' := by
  cases hpc : s.pc t with
  | idle => exact ⟨s, by unfold Palloc.advance; rw [hpc], h⟩
  | acquire user cnt => exact ⟨s, by unfold Palloc.advance; rw [hpc], h⟩
  | scan user cnt i k => exact h.scan hpc
  | mark user cnt i k => exact h.mark hpc
  | release user cnt idx =>
      cases idx with
      | none => exact h.releaseNone hpc
      | some i => exact h.releaseSome hpc
  | null user cnt => exact h.null hpc
  | check user cnt i k => exact h.check hpc
  | clear user cnt i k => exact h.clear hpc
  | stopped =>
      have hknown := h.known t
      rw [hpc] at hknown
      exact hknown.elim

theorem Inv.next (h : Inv s) (hstep : Step s t s') : Inv s' := by
  cases hstep with
  | get user cnt hpc => exact h.get hpc user cnt
  | acquire hpc hlock => exact h.acquire hpc hlock
  | free hpc hfrees hcall =>
      obtain ⟨s₁, hok, hinv⟩ := h.free hpc hfrees
      rw [hok] at hcall
      cases hcall
      exact hinv
  | freeStop hpc hfrees hcall =>
      obtain ⟨s₁, hok, -⟩ := h.free hpc hfrees
      rw [hok] at hcall
      cases hcall
  | advance hnext =>
      obtain ⟨s₁, hok, hinv⟩ := h.advance t
      rw [hok] at hnext
      cases hnext
      exact hinv
  | stop hnext =>
      obtain ⟨s₁, hok, -⟩ := h.advance t
      rw [hok] at hnext
      cases hnext

theorem Inv.reachable {r : Ram} (hstart : Inv (start ι r)) (hreach : Reachable r s) : Inv s := by
  induction hreach with
  | refl => exact hstart
  | tail _ hstep ih =>
      obtain ⟨t, hstep⟩ := hstep
      exact ih.next hstep

end Steps

/-! ### The start -/

/-- The map takes at least a page, and nothing is marked in it. -/
theorem initPool_map {m : Mem} {base pageCnt : Nat} {p : Pool} (hcnt : pageCnt < 2 ^ 32)
    (h : initPool m base pageCnt = .ok p) :
    base < p.base ∧ ∀ i < p.usedMap.bitCnt, p.usedMap.bit i = false := by
  unfold initPool bitmapCreateInBuf at h
  dsimp only at h
  have hsome : 0 < divRoundUp (bitmapBufSize pageCnt) PGSIZE := by
    unfold divRoundUp bitmapBufSize byteCnt elemCnt ELEM_BITS PGSIZE
    omega
  generalize divRoundUp (bitmapBufSize pageCnt) PGSIZE = bmPages at h hsome
  by_cases hfew : bmPages > pageCnt
  · rw [if_pos hfew] at h
    cases h
  · rw [if_neg hfew] at h
    obtain ⟨b, hcreate, hp⟩ := bind_eq_ok h
    by_cases hroom : bmPages * PGSIZE ≥ bitmapBufSize (pageCnt - bmPages)
    · rw [if_pos hroom] at hcreate
      obtain ⟨b', hset, hbits, hbit⟩ := @Bitmap.setMultiple_spec
        ⟨pageCnt - bmPages, fun i => m (base + 8 + i)⟩ (by dsimp only; omega)
        0 (pageCnt - bmPages) (by dsimp only; omega) false
      have hb : b' = b := Except.ok.inj (hset.symm.trans hcreate)
      cases hp
      subst hb
      refine ⟨?_, fun i hi => ?_⟩
      · unfold PGSIZE
        dsimp only
        omega
      · dsimp only at hi hbits ⊢
        rw [hbit, if_pos (by omega)]
    · rw [if_neg hroom] at hcreate
      cases hcreate

/-- `palloc_init` leaves two pools apart, both empty. -/
theorem pallocInit_start {m : Mem} {initRamPages userPageLimit : Nat} {r : Ram}
    (hram : initRamPages ≤ 262144) (h : pallocInit m initRamPages userPageLimit = .ok r) :
    Pools (start ι r) ∧ ∀ user i, i < ((start ι r).map user).bitCnt →
      ((start ι r).map user).bit i = false := by
  unfold pallocInit ptov at h
  rw [if_pos (by decide), ok_bind, if_pos (by unfold PGSIZE PHYS_BASE; omega), ok_bind] at h
  dsimp only at h
  have hfree : (initRamPages * PGSIZE + PHYS_BASE - (1024 * 1024 + PHYS_BASE)) / PGSIZE =
      initRamPages - 256 := by
    unfold PGSIZE PHYS_BASE
    omega
  rw [hfree] at h
  obtain ⟨userPages, huser⟩ : ∃ userPages, (if (initRamPages - 256) / 2 > userPageLimit then
      userPageLimit else (initRamPages - 256) / 2) = userPages := ⟨_, rfl⟩
  have hsome : userPages ≤ (initRamPages - 256) / 2 := by
    rw [← huser]
    split_ifs <;> omega
  rw [huser] at h
  obtain ⟨kp, hk, h⟩ := bind_eq_ok h
  obtain ⟨up, hu, h⟩ := bind_eq_ok h
  cases h
  obtain ⟨hkplaced, hkbase, hkend⟩ := initPool_spec (by decide) (by decide)
    (by unfold PHYS_BASE; omega) hk
  obtain ⟨huplaced, hubase, huend⟩ := initPool_spec (by unfold PHYS_BASE PGSIZE; omega)
    (by unfold PHYS_BASE; omega) (by unfold PHYS_BASE PGSIZE; omega) hu
  obtain ⟨-, hkclear⟩ := initPool_map (by omega) hk
  obtain ⟨humap, huclear⟩ := initPool_map (by omega) hu
  refine ⟨⟨fun user => ?_, ?_⟩, fun user => ?_⟩
  · cases user with
    | false => exact hkplaced
    | true => exact huplaced
  · show kp.base + 4096 * kp.usedMap.bitCnt < up.base
    unfold PGSIZE at humap
    omega
  · cases user with
    | false => exact hkclear
    | true => exact huclear

theorem Inv.start {m : Mem} {initRamPages userPageLimit : Nat} {r : Ram}
    (hram : initRamPages ≤ 262144) (h : pallocInit m initRamPages userPageLimit = .ok r) :
    Inv (start ι r) := by
  obtain ⟨hpools, hclear⟩ := pallocInit_start hram h
  have hheld : ∀ t user i, ¬ Held (Palloc.start ι r) t user i :=
    fun t user i hi => hi.elim (fun hown => hown.2) id
  refine ⟨hpools, nofun, fun t user i hi => absurd hi (hheld t user i), fun user i hlt hi => ?_,
    fun t t' user i hi => absurd hi (hheld t user i), nofun, fun t user => ?_, fun t => trivial⟩
  · rw [hclear user i hlt] at hi
    cases hi
  · exact iff_of_false id nofun

/-- Every run of `cnt` pages had one in use when `t` got the lock. -/
def Refused (s : State ι) (t : ι) (user : Bool) (cnt : Nat) : Prop :=
  ∀ i, i + cnt ≤ (s.map user).bitCnt → Taken s t i cnt

/-- What holds at any time. -/
structure Safe (s : State ι) : Prop where
  /-- No page has two owners. -/
  exclusive : ∀ t t' page, s.owned t page → s.owned t' page → t = t'
  /-- A page that is owned is marked in the map of its own pool. -/
  marked : ∀ t page, s.owned t page → ∃ user i, i < (s.map user).bitCnt ∧
    page = s.page user i ∧ poolOf s page = .ok user ∧ (s.map user).bit i = true
  /-- A page that is marked is owned, or is being handed out or given back. -/
  kept : ∀ user i, i < (s.map user).bitCnt → (s.map user).bit i = true → ∃ t, Held s t user i
  /-- The pages that are returned are pages of the pool. -/
  inside : ∀ t user cnt i, s.pc t = .release user cnt (some i) → i + cnt ≤ (s.map user).bitCnt
  /-- No assertion has failed. -/
  running : ∀ t, s.pc t ≠ .stopped
  /-- A null pointer is returned only if there was no run of pages. -/
  null : ∀ t user cnt, s.pc t = .null user cnt → 0 < cnt → Refused s t user cnt

theorem Inv.safe (h : Inv s) : Safe s where
  exclusive t t' page hown hown' := by
    obtain ⟨user, i, hi, rfl⟩ := h.pages t page hown
    exact h.exclusive t t' user i (Or.inl ⟨hi, hown⟩) (Or.inl ⟨hi, hown'⟩)
  marked t page hown := by
    obtain ⟨user, i, hi, rfl⟩ := h.pages t page hown
    exact ⟨user, i, hi, rfl, h.pools.poolOf_page hi, (h.used t user i (Or.inl ⟨hi, hown⟩)).2⟩
  kept := h.marked
  inside t user cnt i hpc := by
    have hknown := h.known t
    rwa [hpc] at hknown
  running t hpc := by
    have hknown := h.known t
    rwa [hpc] at hknown
  null t user cnt hpc := by
    have hknown := h.known t
    rwa [hpc] at hknown

variable [DecidableEq ι]

/-- **The pages are safe in every order of steps.** `Inv` is inductive over the steps of
single threads, each of which looks at or changes one bit (`Inv.advance` and the calls), and
`Safe` follows from it in each state. -/
theorem palloc_safe {m : Mem} {initRamPages userPageLimit : Nat} {r : Ram}
    (hram : initRamPages ≤ 262144) (hinit : pallocInit m initRamPages userPageLimit = .ok r)
    (hreach : Reachable r s) : Safe s :=
  (Inv.reachable (Inv.start hram hinit) hreach).safe

/-- Eight pages of memory above the first megabyte. -/
def sampleRam : Ram :=
  match pallocInit (fun _ => 0) 264 16 with
  | .ok r => r
  | .error _ => ⟨fun _ => 0, ⟨⟨0, fun _ => 0⟩, 0⟩, ⟨⟨0, fun _ => 0⟩, 0⟩⟩

theorem sampleRam_eq : pallocInit (fun _ => 0) 264 16 = .ok sampleRam := by
  obtain ⟨r, hr⟩ := @pallocInit_ok (fun _ => 0) 264 16 (by decide) (by decide) (by decide)
  simp only [sampleRam, hr]

/-- A thread asks for a page of the kernel pool and gets its lock. -/
def sampleGet (s : State Bool) (t : Bool) : State Bool :=
  { (s.goto t (.acquire false 1)).goto t (.scan false 1 0 0) with
    lock := Function.update s.lock false (some t)
    atLock := Function.update s.atLock t (s.map false).bit }

/-- One thread takes a page. -/
def sampleOne : State Bool :=
  (fun s => next s true)^[3] (sampleGet (start Bool sampleRam) true)

/-- So does the other, which finds the first page in use. -/
def sampleTwo : State Bool := (fun s => next s false)^[4] (sampleGet sampleOne false)

/-- The first thread gives its page back. -/
def sampleFreed : State Bool :=
  (fun s => next s true)^[2] (freed sampleTwo true (sampleTwo.page false 0) 1)

theorem Reachable.sampleGet {s : State Bool} {t : Bool} (h : Reachable sampleRam s)
    (hpc : s.pc t = .idle) (hlock : s.lock false = none) (hroom : 1 ≤ (s.map false).bitCnt) :
    Reachable sampleRam (sampleGet s t) := by
  refine .tail (.tail h ⟨t, .get false 1 hpc⟩) ⟨t, ?_⟩
  have hstep : Step (s.goto t (.acquire false 1)) t _ :=
    @Step.acquire _ _ _ _ false 1 (goto_pc_self _ _ _) hlock
  rw [if_pos (show 1 ≤ ((s.goto t (.acquire false 1)).map false).bitCnt from hroom)] at hstep
  exact hstep

/-- Two threads take a page each, and one of them gives it back. -/
theorem palloc_safe_twoThreads : pallocInit (fun _ => 0) 264 16 = .ok sampleRam ∧
    sampleTwo.owned true (sampleTwo.page false 0) ∧
    sampleTwo.owned false (sampleTwo.page false 1) ∧
    (sampleFreed.map false).bit 0 = false ∧ (sampleFreed.map false).bit 1 = true ∧
    Safe sampleFreed := by
  have hown : sampleTwo.owned true (sampleTwo.page false 0) := .inr ⟨0, by decide, rfl⟩
  have hone : Reachable sampleRam sampleOne :=
    Reachable.next (Reachable.sampleGet .refl rfl rfl (by decide +kernel)) true 3
  have htwo : Reachable sampleRam sampleTwo :=
    Reachable.next (hone.sampleGet (by decide +kernel) (by decide +kernel) (by decide +kernel))
      false 4
  have hfrees : Frees sampleTwo true (sampleTwo.page false 0) 1 := by
    refine ⟨by decide +kernel, .inr fun k hk => ?_⟩
    obtain rfl : k = 0 := by omega
    exact hown
  have hfreed : Reachable sampleRam sampleFreed :=
    Reachable.next (.tail htwo ⟨true, step_freed (by decide +kernel) hfrees⟩) true 2
  exact ⟨sampleRam_eq, hown, .inr ⟨0, by decide, rfl⟩, by decide +kernel, by decide +kernel,
    palloc_safe (by decide) sampleRam_eq hfreed⟩

/-- No pages are refused, though a run of no pages is always free. -/
theorem not_null_refused : ¬ ∀ (r : Ram) (s : State Bool),
    pallocInit (fun _ => 0) 1024 16 = .ok r → Reachable r s →
      ∀ t user cnt, s.pc t = .null user cnt → Refused s t user cnt := by
  intro hall
  obtain ⟨r, hr⟩ := @pallocInit_ok (fun _ => 0) 1024 16 (by decide) (by decide) (by decide)
  obtain ⟨j, hj, -⟩ := hall r _ hr (.single ⟨true, .get false 0 rfl⟩) true false 0
    (goto_pc_self _ _ _) 0 (Nat.zero_le _)
  exact absurd hj (Nat.not_lt_zero j)

end Palloc

end OsTools.Threads

import Mathlib.Data.List.Nodup
import Mathlib.Data.List.Perm.Basic
import OsTools.Paging.Operations
/-!
# OsTools.Paging.Destroy

What `pagedir_destroy` frees: the frames of the user pages, the page tables and the
directory. A page is overwritten when it is freed, so that the loops must be through with it.

## Proof shape

Freeing a page overwrites it, so both loops carry that the pages still to be read have not
been freed. For the inner loop it is the page table itself, which is freed after it; for the
outer loop they are the directory and the page tables of the entries to come, which are
others than those of the entries before (`Repr`). The list of freed pages is computed in the
order of the code, and compared with the frames of the history up to a permutation.
-/

namespace OsTools.Paging

section Destroy

variable {k : Kernel} {base tables : List Word} {pd pt : Word} {s s₀ : State}
  {f : Nat → Option Word} {d i : Nat}

theorem pgNo_eq_index (va : Word) : pgNo va = pdNo va * 1024 + ptNo va := by
  rw [pgNo_eq, pdNo_eq, ptNo_eq]
  omega

/-- The frame of a page, by the indices of the page. -/
theorem Maps.index (hmaps : Maps k pd s f) (hd : d < 768) (hi : i < 1024) :
    Entry k (f (d * 1024 + i)) (if s.mem pd d = 0 then none
      else some (s.mem (addrOf (s.mem pd d)) i)) := by
  obtain ⟨va, rfl, rfl⟩ := exists_va (show d < 1024 by omega) hi
  rw [← pgNo_eq_index]
  exact hmaps.entry va hd

/-- The inner loop frees the frames, and keeps all other pages. By induction on the entries
that are left; the frames are pages of the user pool, and the page table is none, so that it
can still be read. -/
theorem freeFrames (g : Nat → Option Word) (l : List Nat)
    (hentry : ∀ i ∈ l, Entry k (g i) (some (s.mem pt i))) (hpool : k.userPool pt = false) :
    ∃ s', l.foldlM (freeFrame pt) s = .ok s' ∧ s'.freed = s.freed ++ l.filterMap g ∧
      ∀ page, k.userPool page = false → s'.mem page = s.mem page := by
  induction l generalizing s with
  | nil =>
      refine ⟨s, rfl, ?_, fun _ _ => rfl⟩
      rw [List.filterMap_nil, List.append_nil]
  | cons i l ih =>
      have hi := hentry i List.mem_cons_self
      rw [List.foldlM_cons]
      unfold freeFrame
      cases hg : g i with
      | none =>
          rw [hg] at hi
          rw [if_neg (not_not.mpr (hi _ rfl)), ok_bind, List.filterMap_cons_none hg]
          exact ih fun j hj => hentry j (List.mem_cons_of_mem _ hj)
      | some a =>
          rw [hg] at hi
          obtain ⟨hpage, huser, w, hw, hpresent, haddr⟩ := hi
          cases hw
          have hkeep : ∀ page, k.userPool page = false →
              (s.pallocFreePage a).mem page = s.mem page := by
            intro page hp
            refine Function.update_of_ne ?_ _ _
            rintro rfl
            rw [huser] at hp
            cases hp
          rw [if_pos hpresent]
          unfold pteGetPage
          rw [ptov_of_addr hpage haddr, ok_bind, ok_bind, List.filterMap_cons_some hg]
          obtain ⟨s', hloop, hfreed, hmem⟩ := ih (s := s.pallocFreePage a) fun j hj => by
            rw [hkeep pt hpool]
            exact hentry j (List.mem_cons_of_mem _ hj)
          refine ⟨s', hloop, ?_, fun page hp => (hmem page hp).trans (hkeep page hp)⟩
          rw [hfreed]
          change s.freed ++ [a] ++ _ = _
          rw [List.append_assoc]
          rfl

/-- The frames of the pages of the table `d`. -/
def framesAt (f : Nat → Option Word) (d : Nat) : List Word :=
  (List.range 1024).filterMap fun i => f (d * 1024 + i)

/-- The page table `d`. -/
def tableAt (s : State) (pd : Word) (d : Nat) : Option Word :=
  if s.mem pd d = 0 then none else some (addrOf (s.mem pd d))

/-- The outer loop frees the frames and the tables. It comes to each table before it is
freed. -/
theorem freeTables (h : Repr k base pd s₀ tables) (hmaps : Maps k pd s₀ f) (l : List Nat)
    (hl : l.Nodup) (hlt : ∀ d ∈ l, d < 768) (hpd : s.mem pd = s₀.mem pd)
    (htables : ∀ d ∈ l, ∀ t ∈ tableAt s₀ pd d, s.mem t = s₀.mem t) :
    ∃ s', l.foldlM (freeTable pd) s = .ok s' ∧ s'.freed = s.freed ++
      l.flatMap fun d => framesAt f d ++ (tableAt s₀ pd d).toList := by
  induction l generalizing s with
  | nil =>
      refine ⟨s, rfl, ?_⟩
      rw [List.flatMap_nil, List.append_nil]
  | cons d l ih =>
      have hd := hlt d List.mem_cons_self
      have hkernel : k.userPool pd = false := (h.page pd h.pd_mem).2
      rw [List.foldlM_cons, List.flatMap_cons]
      unfold freeTable
      rw [hpd]
      by_cases hzero : s₀.mem pd d = 0
      · -- no table: nothing is mapped in its range, and nothing is freed
        have hclear : ¬ s₀.mem pd d &&& PTE_P ≠ 0 := by
          rw [hzero]
          decide
        have hframes : framesAt f d = [] := by
          refine List.filterMap_eq_nil_iff.mpr fun i hi => ?_
          have hentry := hmaps.index hd (List.mem_range.mp hi)
          rw [if_pos hzero] at hentry
          cases hf : f (d * 1024 + i) with
          | none => rfl
          | some a =>
              rw [hf] at hentry
              obtain ⟨-, -, w, hw, -⟩ := hentry
              cases hw
        have htable : tableAt s₀ pd d = none := if_pos hzero
        rw [if_neg hclear, ok_bind, hframes, htable]
        exact ih (List.nodup_cons.mp hl).2 (fun d' hd' => hlt d' (List.mem_cons_of_mem _ hd')) hpd
          fun d' hd' => htables d' (List.mem_cons_of_mem _ hd')
      · obtain ⟨t, ht, htpd, -, hpage, heq, -⟩ := h.table (show d < 1024 by omega) hzero
        have htable : tableAt s₀ pd d = some t := by
          unfold tableAt
          rw [if_neg hzero, heq, hpage.addrOf_pde]
        have hmemt : s.mem t = s₀.mem t := htables d List.mem_cons_self t htable
        have hpresent : s₀.mem pd d &&& PTE_P ≠ 0 := by
          rw [heq, pde_present]
          decide
        have hentries : ∀ i ∈ List.range 1024, Entry k (f (d * 1024 + i)) (some (s.mem t i)) := by
          intro i hi
          have hentry := hmaps.index hd (List.mem_range.mp hi)
          rw [if_neg hzero, heq, hpage.addrOf_pde] at hentry
          rw [hmemt]
          exact hentry
        obtain ⟨s₁, hloop, hfreed, hmem⟩ :=
          freeFrames (fun i => f (d * 1024 + i)) (List.range 1024) hentries (h.page t ht).2
        rw [if_pos hpresent, heq, hpage.pdeGetPt, ok_bind, hloop, ok_bind, ok_bind, htable]
        -- freeing writes to the pages it frees only, and no other table is one of them
        have hkeep : ∀ page, k.userPool page = false → page ≠ t →
            (s₁.pallocFreePage t).mem page = s.mem page :=
          fun page hp hne => (Function.update_of_ne hne _ _).trans (hmem page hp)
        obtain ⟨s', hloop', hfreed'⟩ := ih (s := s₁.pallocFreePage t) (List.nodup_cons.mp hl).2
          (fun d' hd' => hlt d' (List.mem_cons_of_mem _ hd'))
          ((hkeep pd hkernel (Ne.symm htpd)).trans hpd) fun d' hd' t' ht' => by
            have hd'lt := hlt d' (List.mem_cons_of_mem _ hd')
            have hne' : s₀.mem pd d' ≠ 0 := by
              intro hz
              unfold tableAt at ht'
              rw [if_pos hz] at ht'
              cases ht'
            obtain ⟨t'', ht''mem, -, -, hpage'', heq'', -⟩ :=
              h.table (show d' < 1024 by omega) hne'
            have ht'eq : t' = t'' := by
              unfold tableAt at ht'
              rw [if_neg hne', heq'', hpage''.addrOf_pde] at ht'
              exact (Option.mem_some_iff.mp ht').symm
            subst ht'eq
            have htt : t' ≠ t := by
              rintro rfl
              have := h.inj d' d (by omega) (by omega) (heq''.trans heq.symm) hne'
              subst this
              exact (List.nodup_cons.mp hl).1 hd'
            rw [hkeep t' (h.page t' ht''mem).2 htt]
            exact htables d' (List.mem_cons_of_mem _ hd') t' ht'
        refine ⟨s', hloop', ?_⟩
        rw [hfreed']
        change s₁.freed ++ [t] ++ _ = _
        rw [hfreed]
        simp only [framesAt, Option.toList_some, List.append_assoc]

/-- The frames of all the pages. -/
def frames (f : Nat → Option Word) : List Word := (List.range 768).flatMap (framesAt f)

theorem mem_framesAt {a : Word} : a ∈ framesAt f d ↔ ∃ i < 1024, f (d * 1024 + i) = some a := by
  unfold framesAt
  rw [List.mem_filterMap]
  simp only [List.mem_range]

theorem Maps.mem_frames (hmaps : Maps k pd s f) {a : Word} :
    a ∈ frames f ↔ ∃ p, f p = some a := by
  unfold frames
  rw [List.mem_flatMap]
  constructor
  · rintro ⟨d, -, ha⟩
    obtain ⟨i, -, hf⟩ := mem_framesAt.mp ha
    exact ⟨_, hf⟩
  · rintro ⟨p, hp⟩
    obtain ⟨va, hva, rfl⟩ := hmaps.user p a hp
    refine ⟨pdNo va, List.mem_range.mpr hva, mem_framesAt.mpr ⟨ptNo va, ptNo_lt va, ?_⟩⟩
    rw [← pgNo_eq_index]
    exact hp

theorem Maps.nodup_frames (hmaps : Maps k pd s f) : (frames f).Nodup := by
  unfold frames
  refine List.nodup_flatMap.mpr ⟨fun d _ => ?_, ?_⟩
  · refine List.nodup_range.filterMap fun i j a hi hj => ?_
    have := hmaps.inj _ _ a hi hj
    omega
  · refine List.nodup_range.imp fun {d d'} hne a ha ha' => ?_
    obtain ⟨i, hi, hf⟩ := mem_framesAt.mp ha
    obtain ⟨j, hj, hf'⟩ := mem_framesAt.mp ha'
    have := hmaps.inj _ _ a hf hf'
    omega

/-- The page tables that the directory has entries for are those that were made for it. -/
theorem Repr.tables_perm (h : Repr k base pd s tables) :
    ((List.range 768).filterMap (tableAt s pd)).Perm tables := by
  have hentry : ∀ d < 768, ∀ t, tableAt s pd d = some t → t ∈ tables ∧ s.mem pd d = pde t := by
    intro d hd t ht
    unfold tableAt at ht
    split_ifs at ht with hzero
    obtain ⟨t', -, -, -, hpage, heq, hmem⟩ := h.table (show d < 1024 by omega) hzero
    rw [heq, hpage.addrOf_pde] at ht
    cases ht
    exact ⟨hmem hd, heq⟩
  have hnodup := h.nodup
  rw [h.taken] at hnodup
  refine (List.perm_ext_iff_of_nodup ?_ (List.nodup_append.mp hnodup).1).mpr fun t => ?_
  · refine List.pairwise_filterMap.mpr (List.nodup_range.imp_of_mem ?_)
    rintro d d' hd hd' hne t ht t' ht' rfl
    have heq := (hentry d (List.mem_range.mp hd) t ht).2
    have heq' := (hentry d' (List.mem_range.mp hd') t ht').2
    have hlt := List.mem_range.mp hd
    have hlt' := List.mem_range.mp hd'
    exact hne (h.inj d d' (by omega) (by omega) (heq.trans heq'.symm) (heq ▸ pde_ne_zero t))
  · rw [List.mem_filterMap]
    constructor
    · rintro ⟨d, hd, ht⟩
      exact (hentry d (List.mem_range.mp hd) t ht).1
    · intro ht
      obtain ⟨d, hd, heq⟩ := h.used t ht
      have hmem : t ∈ s.taken := by
        rw [h.taken]
        exact List.mem_append_left _ ht
      refine ⟨d, List.mem_range.mpr hd, ?_⟩
      unfold tableAt
      rw [heq, if_neg (pde_ne_zero t), (h.page t hmem).1.addrOf_pde]

/-- `pagedir_destroy` frees each frame, each page table and the directory once. The list of
freed pages is that of the loops, and it has no page twice, because frames are pages of the
user pool, the page tables are different, and the directory is none of them. -/
theorem Repr.destroy (h : Repr k base pd s tables) (hmaps : Maps k pd s f) :
    ∃ s' freed, pagedirDestroy k pd s = .ok s' ∧ s'.freed = s.freed ++ freed ∧
      freed.Perm (frames f ++ tables ++ [pd]) ∧ freed.Nodup := by
  obtain ⟨s', hloop, hfreed⟩ := freeTables h hmaps (List.range 768) List.nodup_range
    (fun d hd => List.mem_range.mp hd) rfl fun _ _ _ _ => rfl
  have hperm : ((List.range 768).flatMap fun d => framesAt f d ++ (tableAt s pd d).toList).Perm
      (frames f ++ tables) := by
    refine (List.flatMap_append_perm _ _ _).symm.trans (List.Perm.append_left _ ?_)
    rw [← List.filterMap_eq_flatMap_toList]
    exact h.tables_perm
  have hnodup := h.nodup
  rw [h.taken] at hnodup
  have hpool : ∀ a ∈ frames f, a ∉ tables ++ pd :: base := by
    intro a ha hmem
    obtain ⟨p, hp⟩ := hmaps.mem_frames.mp ha
    obtain ⟨va, hva, rfl⟩ := hmaps.user p a hp
    have hentry := hmaps.entry va hva
    rw [hp] at hentry
    have hfalse := (h.page a (h.taken ▸ hmem)).2
    rw [hentry.2.1] at hfalse
    cases hfalse
  have hall : (frames f ++ tables ++ [pd]).Nodup := by
    have hown : (tables ++ [pd]).Nodup :=
      hnodup.sublist (List.Sublist.append_left (List.singleton_sublist.mpr List.mem_cons_self) _)
    rw [List.append_assoc]
    refine List.nodup_append.mpr ⟨hmaps.nodup_frames, hown, fun a ha b hb => ?_⟩
    rintro rfl
    refine hpool a ha ?_
    rcases List.mem_append.mp hb with ht | hpd
    · exact List.mem_append_left _ ht
    · rw [List.mem_singleton.mp hpd]
      exact List.mem_append_right _ List.mem_cons_self
  refine ⟨s'.pallocFreePage pd, _ ++ [pd], ?_, ?_, hperm.append_right [pd],
    (hperm.append_right [pd]).nodup_iff.mpr hall⟩
  · unfold pagedirDestroy
    rw [if_neg (h.page pd h.pd_mem).1.ne_zero, if_neg (Ne.symm h.initPageDir_ne),
      show pdNo PHYS_BASE = 768 from rfl, hloop, ok_bind]
  · change s'.freed ++ [pd] = _
    rw [hfreed, List.append_assoc]

end Destroy

end OsTools.Paging

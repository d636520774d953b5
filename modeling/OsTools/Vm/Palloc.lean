import Mathlib.Data.List.Nodup
import Mathlib.Data.List.Perm.Subperm
import OsTools.Vm.Pagedir
/-!
# OsTools.Vm.Palloc

A process's address space together with the frames it holds: the page directory
and what `palloc_get_page (PAL_USER)` and `palloc_free_page` make of the user
pool. `Sound` says that mapped pages have distinct frames that are in use, so
that freeing one never trips the assertion in `palloc_free_page`.

## Proof shape

Mapping and unmapping are described for lists of pages, since `alloc`, its rollback and
`dealloc` differ only in the lists. `Mapped` and `Unmapped` have one lemma for a single
page, from the operations, and one for the concatenation of two lists. `HasTable` is the
subtle point: `pagedir_set_page` may fail for want of a page table, nobody looks at its
result, and whether a table is there may depend on the pages that were mapped before.
`Mapped.undo_frames` says what that costs: the frame of such a page is lost.
-/

namespace OsTools.Vm

/-- `used` are the frames handed out and not freed, `pool` those that the user
pool hands out next; when `pool` is empty it has none. -/
structure Mm where
  pagedir : PageDir
  used : List Nat
  pool : List Nat

namespace Mm

/-- `palloc_get_page (PAL_USER)`. -/
def pallocGetPage (m : Mm) : Option (Nat × Mm) :=
  match m.pool with
  | [] => none
  | kpage :: pool => some (kpage, { m with used := kpage :: m.used, pool })

/-- `palloc_free_page`, of `NULL` or of an address in a frame. -/
def pallocFreePage (m : Mm) : Option (Nat × Nat) → Except Panic Mm
  | none => .ok m
  | some (kpage, ofs) =>
      if ofs ≠ 0 then .error .unaligned
      else if kpage ∈ m.used then .ok { m with used := m.used.erase kpage }
      else .error .notAllocated

/-- `page = pagedir_get_page (pd, upage)`, `pagedir_clear_page (pd, upage)` and
`palloc_free_page (page)`. -/
def unmapPage (m : Mm) (upage : Nat) : Except Panic Mm := do
  let page ← m.pagedir.getPage upage
  let pagedir ← m.pagedir.clearPage upage
  { m with pagedir }.pallocFreePage page

/-- The same under an `if`. -/
def unmapPageIf (m : Mm) (cond : Bool) (upage : Nat) : Except Panic Mm :=
  if cond then m.unmapPage upage else .ok m

/-- The entry of page number `p`. -/
def page (m : Mm) (p : Nat) : Option Pte := m.pagedir.page p

/-- Mapped pages are user pages with frames of their own. -/
structure Sound (m : Mm) : Prop where
  user : ∀ p, m.page p ≠ none → p < userPages
  nodup : m.used.Nodup
  used : ∀ p e, m.page p = some e → e.frame ∈ m.used
  inj : ∀ p q e f, m.page p = some e → m.page q = some f → e.frame = f.frame → p = q

/-- The frames the pool may hand out. -/
structure Fresh (m : Mm) : Prop where
  nodup : m.pool.Nodup
  fresh : ∀ f ∈ m.pool, f ∉ m.used

/-- Every frame in use is the frame of a page. -/
def NoLeak (m : Mm) : Prop := ∀ f ∈ m.used, ∃ p e, m.page p = some e ∧ e.frame = f

/-- The frames in use once page number `p` is unmapped. -/
def freed (m : Mm) (p : Nat) : List Nat :=
  match m.page p with
  | none => m.used
  | some e => m.used.erase e.frame

variable {m m' : Mm} {p q kpage : Nat} {pool : List Nat}

/-- Unmapping a page frees its frame, and changes nothing if the page was not mapped. No other
page has the frame, so that the frames in use are still those of the mapped pages. -/
theorem Sound.unmapPage_page (hm : m.Sound) (hp : p < userPages) :
    ∃ m', m.unmapPage (pageAddr p) = .ok m' ∧ m'.Sound ∧ m'.page = Function.update m.page p none ∧
      m'.used = m.freed p := by
  obtain ⟨pd', hclear, hpage⟩ := @PageDir.clearPage_page m.pagedir p hp
  have hpage' : ∀ used, (⟨pd', used, m.pool⟩ : Mm).page = Function.update m.page p none :=
    fun _ => hpage
  have hother : ∀ {r e}, Function.update m.page p none r = some e → r ≠ p ∧ m.page r = some e := by
    intro r e hr
    by_cases hrp : r = p
    · rw [hrp, Function.update_self] at hr
      exact absurd hr (by simp)
    · rw [Function.update_of_ne hrp] at hr
      exact ⟨hrp, hr⟩
  have huser : ∀ r, Function.update m.page p none r ≠ none → r < userPages := by
    intro r hr
    obtain ⟨e, he⟩ := Option.ne_none_iff_exists'.mp hr
    exact hm.user r (by rw [(hother he).2]; simp)
  unfold unmapPage
  rw [PageDir.getPage_page hp, hclear]
  show ∃ m', pallocFreePage _ (Option.map (fun pte => (pte.frame, 0)) (m.page p)) = _ ∧ _
  unfold freed
  cases he : m.page p with
  | none =>
      refine ⟨_, rfl, ⟨?_, hm.nodup, ?_, ?_⟩, hpage' _, rfl⟩
      · rwa [hpage']
      · rw [hpage']
        exact fun r e hr => hm.used r e (hother hr).2
      · rw [hpage']
        exact fun r s e f hr hs => hm.inj r s e f (hother hr).2 (hother hs).2
  | some e =>
      have hin : e.frame ∈ m.used := hm.used p e he
      refine ⟨⟨pd', m.used.erase e.frame, m.pool⟩, ?_, ⟨?_, hm.nodup.erase _, ?_, ?_⟩, hpage' _,
        rfl⟩
      · unfold pallocFreePage
        dsimp only [Option.map]
        rw [if_neg (by simp), if_pos hin]
      · rwa [hpage']
      · rw [hpage']
        intro r f hr
        obtain ⟨hne, hr⟩ := hother hr
        refine (List.mem_erase_of_ne fun heq => ?_).mpr (hm.used r f hr)
        exact hne (hm.inj r p f e hr he heq)
      · rw [hpage']
        exact fun r s e f hr hs => hm.inj r s e f (hother hr).2 (hother hs).2

/-- `palloc_get_page` followed by `pagedir_set_page` of a user page that is not
mapped. -/
theorem Sound.setPage_page (hm : m.Sound) (hf : m.Fresh) (hpool : m.pool = kpage :: pool)
    (hp : p < userPages) (hnone : m.page p = none) (writable avail : Bool) :
    ∃ b pd', m.pagedir.setPage (pageAddr p) kpage writable avail = .ok (b, pd') ∧
      b = (m.pagedir.hasTable p || avail) ∧
      Sound ⟨pd', kpage :: m.used, pool⟩ ∧ Fresh ⟨pd', kpage :: m.used, pool⟩ ∧
      pd'.page = (if b then Function.update m.page p (some ⟨kpage, writable⟩) else m.page) ∧
      ∀ q, pd'.hasTable q = true ↔ m.pagedir.hasTable q = true ∨
        (pdNo (pageAddr p) = pdNo (pageAddr q) ∧ avail = true) := by
  obtain ⟨b, pd', hset, hb, hpage, htab⟩ :=
    @PageDir.setPage_page m.pagedir p kpage writable avail hp hnone
  have hfresh : kpage ∉ m.used := hf.fresh kpage (by simp [hpool])
  have hpage' : (⟨pd', kpage :: m.used, pool⟩ : Mm).page =
      (if b then Function.update m.page p (some ⟨kpage, writable⟩) else m.page) := hpage
  -- a page of the new table is the new one or one of the old table
  have hcases : ∀ {r e}, (⟨pd', kpage :: m.used, pool⟩ : Mm).page r = some e →
      (r = p ∧ e.frame = kpage) ∨ m.page r = some e := by
    intro r e hr
    rw [hpage'] at hr
    cases b with
    | false => exact Or.inr hr
    | true =>
        rw [if_pos rfl] at hr
        by_cases hrp : r = p
        · rw [hrp, Function.update_self] at hr
          rw [← Option.some.inj hr]
          exact Or.inl ⟨hrp, rfl⟩
        · rw [Function.update_of_ne hrp] at hr
          exact Or.inr hr
  have hnew : ∀ {r e}, m.page r = some e → e.frame ≠ kpage := by
    rintro r e hr rfl
    exact hfresh (hm.used r e hr)
  refine ⟨b, pd', hset, hb, ⟨?_, ?_, ?_, ?_⟩, ⟨?_, ?_⟩, hpage, htab⟩
  · intro r hr
    obtain ⟨e, he⟩ := Option.ne_none_iff_exists'.mp hr
    rcases hcases he with ⟨rfl, -⟩ | he
    · exact hp
    · exact hm.user r (by rw [he]; simp)
  · exact List.nodup_cons.mpr ⟨hfresh, hm.nodup⟩
  · intro r e hr
    rcases hcases hr with ⟨-, he⟩ | hr
    · exact he ▸ List.mem_cons_self
    · exact List.mem_cons_of_mem _ (hm.used r e hr)
  · intro r s e f hr hs heq
    rcases hcases hr with ⟨rfl, he⟩ | hr <;> rcases hcases hs with ⟨rfl, hf⟩ | hs
    · rfl
    · exact absurd (heq.symm.trans he) (hnew hs)
    · exact absurd (heq.trans hf) (hnew hr)
    · exact hm.inj r s e f hr hs heq
  · have := hf.nodup
    rw [hpool] at this
    exact (List.nodup_cons.mp this).2
  · intro f hfm
    have hnd := hf.nodup
    rw [hpool] at hnd
    refine List.not_mem_cons_of_ne_of_not_mem ?_ (hf.fresh f (by simp [hpool, hfm]))
    rintro rfl
    exact (List.nodup_cons.mp hnd).1 hfm

/-! ### Several pages -/

/-- When the pages `ps` are mapped one after the other, there is a page table for
`q` by its turn: from before, or created for an earlier page or for `q`. -/
def HasTable (m : Mm) (tables : Nat → Bool) (ps : List Nat) (q : Nat) : Prop :=
  m.pagedir.hasTable q = true ∨
    ∃ r ∈ ps, r ≤ q ∧ pdNo (pageAddr r) = pdNo (pageAddr q) ∧ tables r = true

instance (m : Mm) (tables : Nat → Bool) (ps : List Nat) (q : Nat) :
    Decidable (m.HasTable tables ps q) := inferInstanceAs (Decidable (_ ∨ ∃ r ∈ ps, _))

/-- From `m`, the pages `ps` were each given a frame and mapped to it, as far as
page tables could be created. -/
structure Mapped (tables : Nat → Bool) (ps : List Nat) (m m' : Mm) : Prop where
  sound : m'.Sound
  fresh : m'.Fresh
  pool : m'.pool = m.pool.drop ps.length
  same : ∀ q, q ∉ ps → m'.page q = m.page q
  new : ∀ q ∈ ps, m'.page q = none ∨ ∃ f ∈ m.pool, m'.page q = some ⟨f, true⟩
  ok : ∀ q ∈ ps, m'.page q ≠ none ↔ m.HasTable tables ps q
  used : ∀ f ∈ m.used, f ∈ m'.used
  frames : ∀ f, f ∈ m'.used ↔ f ∈ m.used ∨ f ∈ m.pool.take ps.length
  newFrame : ∀ q ∈ ps, ∀ e, m'.page q = some e → e.frame ∈ m.pool.take ps.length
  noLeak : m.NoLeak → (∀ q ∈ ps, m.HasTable tables ps q) → m'.NoLeak
  tables : ∀ q, m'.pagedir.hasTable q = true ↔ m.pagedir.hasTable q = true ∨
    ∃ r ∈ ps, pdNo (pageAddr r) = pdNo (pageAddr q) ∧ tables r = true

/-- From `m`, the pages `ps` were unmapped and their frames freed. -/
structure Unmapped (ps : List Nat) (m m' : Mm) : Prop where
  sound : m'.Sound
  same : ∀ q, q ∉ ps → m'.page q = m.page q
  gone : ∀ q ∈ ps, m'.page q = none
  used : ∀ f ∈ m'.used, f ∈ m.used
  frames : ∀ f, f ∈ m'.used ↔ f ∈ m.used ∧ ∀ q ∈ ps, ∀ e, m.page q = some e → e.frame ≠ f
  noLeak : m.NoLeak → m'.NoLeak

variable {m₁ : Mm} {tables : Nat → Bool} {ps qs : List Nat}

theorem Mapped.nil (hm : m.Sound) (hf : m.Fresh) : Mapped tables [] m m where
  sound := hm
  fresh := hf
  pool := rfl
  same := fun _ _ => rfl
  new := fun q hq => absurd hq (by simp)
  ok := fun q hq => absurd hq (by simp)
  used := fun _ h => h
  frames := fun f => by simp
  newFrame := fun q hq => absurd hq (by simp)
  noLeak := fun h _ => h
  tables := fun q => by simp

/-- A frame handed out for a page that was not mapped. -/
theorem NoLeak.cons (hleak : m.NoLeak) (hnone : m.page p = none) {e : Pte}
    (hpage : m'.page = Function.update m.page p (some e)) (hused : m'.used = e.frame :: m.used) :
    m'.NoLeak := by
  intro f hf
  rw [hused] at hf
  rw [hpage]
  rcases List.mem_cons.mp hf with rfl | hf
  · exact ⟨p, e, by rw [Function.update_self], rfl⟩
  · obtain ⟨q, d, hq, hd⟩ := hleak f hf
    have hqp : q ≠ p := by
      rintro rfl
      rw [hnone] at hq
      exact absurd hq (by simp)
    exact ⟨q, d, by rwa [Function.update_of_ne hqp], hd⟩

/-- One page mapped, with the frame that the pool gives out next. That there is no page table
for it is the one way to fail, and then the frame is not mapped but in use all the same. -/
theorem Mapped.single (tables : Nat → Bool) (hm : m.Sound) (hf : m.Fresh)
    (hpool : m.pool = kpage :: pool) (hp : p < userPages) (hnone : m.page p = none) :
    ∃ b pd', m.pagedir.setPage (pageAddr p) kpage true (tables p) = .ok (b, pd') ∧
      Mapped tables [p] m ⟨pd', kpage :: m.used, pool⟩ := by
  obtain ⟨b, pd', hset, hb, hsound, hfresh, hpage, htab⟩ :=
    hm.setPage_page hf hpool hp hnone true (tables p)
  have hpage' : (⟨pd', kpage :: m.used, pool⟩ : Mm).page =
      (if b then Function.update m.page p (some ⟨kpage, true⟩) else m.page) := hpage
  have hok : m.HasTable tables [p] p ↔ b = true := by
    rw [hb]
    simp [HasTable]
  refine ⟨b, pd', hset, hsound, hfresh, ?_, fun q hq => ?_, fun q hq => ?_, fun q hq => ?_,
    fun f hf => List.mem_cons_of_mem _ hf, fun f => ?_, fun q hq e he => ?_, fun hleak h => ?_,
    fun q => ?_⟩
  · rw [hpool]
    rfl
  · rw [hpage']
    cases b with
    | false => rfl
    | true => exact Function.update_of_ne (by simpa using hq) _ _
  · obtain rfl := List.mem_singleton.mp hq
    rw [hpage']
    cases b with
    | false => exact Or.inl hnone
    | true =>
        rw [if_pos rfl, Function.update_self]
        exact Or.inr ⟨kpage, by simp [hpool], rfl⟩
  · obtain rfl := List.mem_singleton.mp hq
    rw [hok, hpage']
    cases b with
    | false => simpa using hnone
    | true => simp
  · rw [hpool]
    simp [or_comm]
  · obtain rfl := List.mem_singleton.mp hq
    rw [hpage'] at he
    cases b with
    | false => exact absurd (hnone.symm.trans he) (by simp)
    | true =>
        rw [if_pos rfl, Function.update_self] at he
        rw [hpool, ← Option.some.inj he]
        simp
  · have hb' := hok.mp (h p (by simp))
    subst hb'
    rw [if_pos rfl] at hpage'
    exact hleak.cons hnone hpage' rfl
  · rw [htab q]
    simp

/-- One batch of pages after another. The pages come in ascending order, so that a page table
of the first batch is one for the second too, and not the other way round. -/
theorem Mapped.trans (h₁ : Mapped tables ps m m₁) (h₂ : Mapped tables qs m₁ m')
    (hlt : ∀ p ∈ ps, ∀ q ∈ qs, p < q) : Mapped tables (ps ++ qs) m m' := by
  have hdis : ∀ q ∈ ps, q ∉ qs := fun q hp hq => lt_irrefl q (hlt q hp q hq)
  -- the tables for the first batch do not depend on the second
  have hfirst : ∀ q ∈ ps, m.HasTable tables (ps ++ qs) q ↔ m.HasTable tables ps q := by
    intro q hq
    refine or_congr_right ⟨fun ⟨r, hr, hrq, h⟩ => ?_, fun ⟨r, hr, h⟩ => ⟨r, by simp [hr], h⟩⟩
    rcases List.mem_append.mp hr with hr | hr
    · exact ⟨r, hr, hrq, h⟩
    · exact absurd (hlt q hq r hr) (by omega)
  have hsecond : ∀ q ∈ qs, m.HasTable tables (ps ++ qs) q ↔ m₁.HasTable tables qs q := by
    intro q hq
    unfold HasTable
    rw [h₁.tables q, or_assoc]
    refine or_congr_right ⟨fun ⟨r, hr, hrq, h⟩ => ?_, ?_⟩
    · rcases List.mem_append.mp hr with hr | hr
      · exact Or.inl ⟨r, hr, h⟩
      · exact Or.inr ⟨r, hr, hrq, h⟩
    · rintro (⟨r, hr, h⟩ | ⟨r, hr, hrq, h⟩)
      · exact ⟨r, by simp [hr], Nat.le_of_lt (hlt r hr q hq), h⟩
      · exact ⟨r, by simp [hr], hrq, h⟩
  refine ⟨h₂.sound, h₂.fresh, ?_, fun q hq => ?_, fun q hq => ?_, fun q hq => ?_,
    fun f hf => h₂.used f (h₁.used f hf), fun f => ?_, fun q hq e he => ?_, fun hleak h => ?_,
    fun q => ?_⟩
  · rw [h₂.pool, h₁.pool, List.drop_drop, List.length_append]
  · rw [h₂.same q (by simp_all), h₁.same q (by simp_all)]
  · rcases List.mem_append.mp hq with hq | hq
    · rw [h₂.same q (hdis q hq)]
      exact h₁.new q hq
    · refine (h₂.new q hq).imp_right ?_
      rintro ⟨f, hf, hpage⟩
      rw [h₁.pool] at hf
      exact ⟨f, List.mem_of_mem_drop hf, hpage⟩
  · rcases List.mem_append.mp hq with hq | hq
    · rw [h₂.same q (hdis q hq), h₁.ok q hq, hfirst q hq]
    · rw [h₂.ok q hq, hsecond q hq]
  · rw [h₂.frames f, h₁.frames f, h₁.pool, List.length_append, List.take_add, List.mem_append,
      or_assoc]
  · rw [List.length_append, List.take_add, List.mem_append]
    rcases List.mem_append.mp hq with hq | hq
    · rw [h₂.same q (hdis q hq)] at he
      exact Or.inl (h₁.newFrame q hq e he)
    · have hframe := h₂.newFrame q hq e he
      rw [h₁.pool] at hframe
      exact Or.inr hframe
  · refine h₂.noLeak (h₁.noLeak hleak fun q hq => ?_) fun q hq => ?_
    · exact (hfirst q hq).mp (h q (List.mem_append_left _ hq))
    · exact (hsecond q hq).mp (h q (List.mem_append_right _ hq))
  · rw [h₂.tables q, h₁.tables q, or_assoc]
    refine or_congr_right ⟨?_, fun ⟨r, hr, h⟩ => ?_⟩
    · rintro (⟨r, hr, h⟩ | ⟨r, hr, h⟩) <;> exact ⟨r, by simp [hr], h⟩
    · rcases List.mem_append.mp hr with hr | hr
      · exact Or.inl ⟨r, hr, h⟩
      · exact Or.inr ⟨r, hr, h⟩

theorem Unmapped.nil (hm : m.Sound) : Unmapped [] m m where
  sound := hm
  same := fun _ _ => rfl
  gone := fun q hq => absurd hq (by simp)
  used := fun _ h => h
  frames := fun f => by simp
  noLeak := fun h => h

theorem mem_freed (hm : m.Sound) {f : Nat} :
    f ∈ m.freed p ↔ f ∈ m.used ∧ ∀ e, m.page p = some e → e.frame ≠ f := by
  unfold freed
  cases he : m.page p with
  | none => simp
  | some e =>
      dsimp only
      rw [hm.nodup.mem_erase_iff, and_comm]
      simp [eq_comm]

/-- One page unmapped. -/
theorem Unmapped.single (hm : m.Sound) (hp : p < userPages) :
    ∃ m', m.unmapPage (pageAddr p) = .ok m' ∧ Unmapped [p] m m' := by
  obtain ⟨m', hrun, hsound, hpage, hused⟩ := hm.unmapPage_page hp
  have hframes : ∀ f, f ∈ m'.used ↔ f ∈ m.used ∧ ∀ e, m.page p = some e → e.frame ≠ f := by
    intro f
    rw [hused]
    exact mem_freed hm
  refine ⟨m', hrun, hsound, fun q hq => ?_, fun q hq => ?_, fun f hf => ((hframes f).mp hf).1,
    fun f => by simpa using hframes f, fun hleak f hf => ?_⟩
  · rw [hpage, Function.update_of_ne (by simpa using hq)]
  · rw [hpage, List.mem_singleton.mp hq, Function.update_self]
  · obtain ⟨hmem, hother⟩ := (hframes f).mp hf
    obtain ⟨q, e, hq, he⟩ := hleak f hmem
    have hqp : q ≠ p := by
      rintro rfl
      exact hother e hq he
    rw [hpage]
    exact ⟨q, e, by rwa [Function.update_of_ne hqp], he⟩

/-- The order of the pages does not matter. -/
theorem Unmapped.congr (h : Unmapped ps m m') (hmem : ∀ q, q ∈ qs ↔ q ∈ ps) :
    Unmapped qs m m' where
  sound := h.sound
  same := fun q hq => h.same q fun hp => hq ((hmem q).mpr hp)
  gone := fun q hq => h.gone q ((hmem q).mp hq)
  used := h.used
  frames := fun f => by
    rw [h.frames f]
    simp only [hmem]
  noLeak := h.noLeak

theorem Unmapped.cond {cond : Bool} (hm : m.Sound) (hp : cond = true → p < userPages) :
    ∃ m', m.unmapPageIf cond (pageAddr p) = .ok m' ∧
      Unmapped (if cond then [p] else []) m m' := by
  cases cond with
  | false => exact ⟨m, rfl, Unmapped.nil hm⟩
  | true => exact Unmapped.single hm (hp rfl)

/-- One batch of pages after another; a page that is in both is unmapped by the first. -/
theorem Unmapped.trans (h₁ : Unmapped ps m m₁) (h₂ : Unmapped qs m₁ m') :
    Unmapped (ps ++ qs) m m' where
  sound := h₂.sound
  same := fun q hq => by
    rw [h₂.same q (by simp_all), h₁.same q (by simp_all)]
  gone := fun q hq => by
    by_cases hqs : q ∈ qs
    · exact h₂.gone q hqs
    · rw [h₂.same q hqs]
      exact h₁.gone q (by simp_all)
  used := fun f hf => h₁.used f (h₂.used f hf)
  frames := fun f => by
    rw [h₂.frames f, h₁.frames f, and_assoc]
    refine and_congr_right fun _ => ⟨fun ⟨hps, hqs⟩ q hq e he => ?_, fun h => ⟨?_, ?_⟩⟩
    · by_cases hp : q ∈ ps
      · exact hps q hp e he
      · refine hqs q ((List.mem_append.mp hq).resolve_left hp) e ?_
        rwa [h₁.same q hp]
    · intro q hq e he
      exact h q (List.mem_append_left _ hq) e he
    · intro q hq e he
      by_cases hp : q ∈ ps
      · rw [h₁.gone q hp] at he
        exact absurd he (by simp)
      · rw [h₁.same q hp] at he
        exact h q (List.mem_append_right _ hq) e he
  noLeak := fun h => h₂.noLeak (h₁.noLeak h)

/-- Mapping pages and unmapping them again restores the page directory. -/
theorem Mapped.undo (h₁ : Mapped tables ps m m₁) (h₂ : Unmapped qs m₁ m')
    (hmem : ∀ q, q ∈ qs ↔ q ∈ ps) (hnone : ∀ q ∈ ps, m.page q = none) : m'.page = m.page := by
  funext q
  by_cases hq : q ∈ ps
  · rw [h₂.gone q ((hmem q).mpr hq), hnone q hq]
  · rw [h₂.same q fun h => hq ((hmem q).mp h), h₁.same q hq]

/-- The frames of the pages `ps`. -/
def framesOf (m : Mm) (ps : List Nat) : List Nat := ps.filterMap fun q => (m.page q).map Pte.frame

theorem mem_framesOf {f : Nat} :
    f ∈ m.framesOf ps ↔ ∃ q ∈ ps, ∃ e, m.page q = some e ∧ e.frame = f := by
  simp [framesOf]

theorem nodup_framesOf (hm : m.Sound) (hps : ps.Nodup) : (m.framesOf ps).Nodup := by
  refine List.Nodup.filterMap ?_ hps
  intro p q f hp hq
  obtain ⟨e, he, hef⟩ := Option.map_eq_some_iff.mp hp
  obtain ⟨d, hd, hdf⟩ := Option.map_eq_some_iff.mp hq
  exact hm.inj p q e d he hd (hef.trans hdf.symm)

/-- It restores the frames in use exactly if all the pages were mapped: the frame of a page that
was not is lost. -/
theorem Mapped.undo_frames (h₁ : Mapped tables ps m m₁) (h₂ : Unmapped qs m₁ m') (hf : m.Fresh)
    (hmem : ∀ q, q ∈ qs ↔ q ∈ ps) (hps : ps.Nodup) (hlen : ps.length ≤ m.pool.length) :
    (∀ f, f ∈ m'.used ↔ f ∈ m.used) ↔ ∀ q ∈ ps, m.HasTable tables ps q := by
  have hown := nodup_framesOf h₁.sound hps
  have hgiven : (m.pool.take ps.length).Nodup := hf.nodup.sublist (List.take_sublist _ _)
  have hglen : (m.pool.take ps.length).length = ps.length := List.length_take_of_le hlen
  have hsub : m₁.framesOf ps ⊆ m.pool.take ps.length := by
    intro f hfm
    obtain ⟨q, hq, e, he, rfl⟩ := mem_framesOf.mp hfm
    exact h₁.newFrame q hq e he
  have hnew : ∀ f ∈ m.pool.take ps.length, f ∉ m.used := fun f hfm =>
    hf.fresh f (List.mem_of_mem_take hfm)
  have hused : ∀ f, f ∈ m'.used ↔
      (f ∈ m.used ∨ f ∈ m.pool.take ps.length) ∧ f ∉ m₁.framesOf ps := by
    intro f
    rw [h₂.frames f, h₁.frames f, mem_framesOf]
    simp only [hmem]
    refine and_congr_right fun _ => ⟨?_, ?_⟩
    · rintro hne ⟨q, hq, e, he, hef⟩
      exact hne q hq e he hef
    · intro hno q hq e he hef
      exact hno ⟨q, hq, e, he, hef⟩
  have hcover : (∀ f, f ∈ m'.used ↔ f ∈ m.used) ↔ m.pool.take ps.length ⊆ m₁.framesOf ps := by
    constructor
    · intro hsame f hfm
      by_contra hno
      exact hnew f hfm ((hsame f).mp ((hused f).mpr ⟨Or.inr hfm, hno⟩))
    · intro hall f
      rw [hused f]
      constructor
      · rintro ⟨hin | hin, hno⟩
        · exact hin
        · exact absurd (hall hin) hno
      · exact fun hin => ⟨Or.inl hin, fun hown => hnew f (hsub hown) hin⟩
  have hcount : m.pool.take ps.length ⊆ m₁.framesOf ps ↔
      (m₁.framesOf ps).length = ps.length := by
    constructor
    · intro hall
      have h := (List.Nodup.subperm hgiven hall).length_le
      have h' := (List.Nodup.subperm hown hsub).length_le
      omega
    · intro heq
      exact ((List.Nodup.subperm hown hsub).perm_of_length_le (by omega)).symm.subset
  rw [hcover, hcount, framesOf, List.filterMap_length_eq_length]
  refine forall₂_congr fun q hq => ?_
  rw [← h₁.ok q hq]
  simp [Option.isSome_iff_ne_none]

end Mm

end OsTools.Vm

import OsTools.Vm.Load
/-!
# OsTools.Vm.HeapStart

Where `load` lets the heap start. Each loaded segment sets `start_of_heap` to its own end, so
that the last `PT_LOAD` header decides, whichever segment is the highest.

`heap_start_iff`: the heap starts above everything that was loaded if and only if there is a
`PT_LOAD` header and none ends on a higher page than the last one.

## Proof shape

The loop over the headers keeps the end of the last segment loaded, and a list of all that
were loaded (`Process.Holding`, one lemma for each round). At the end the two are compared:
the heap starts above all segments just when the last one is among the highest, by page.
That nothing else is mapped there is because a segment maps its own pages only
(`loadPages_same`), and the stack is above every user segment.
-/

namespace OsTools.Vm

variable {m m' : Mm} {t t' : Process} {tables : Nat → Bool} {p q kpage n : Nat} {file : File}
  {fileOfs : Int} {segs : List Phdr}

/-! ### The segments of a file -/

/-- The executable header. -/
def File.ehdr (file : File) : Ehdr := Ehdr.ofBytes (file.read sizeofEhdr).1

/-- The `n` program headers from `fileOfs` on. -/
def File.phdrs (file : File) : Nat → Int → List Phdr
  | 0, _ => []
  | n + 1, fileOfs =>
      Phdr.ofBytes ((file.seek fileOfs.toNat).read sizeofPhdr).1 ::
        file.phdrs n (fileOfs + sizeofPhdr)

/-- The position of the file does not matter. -/
theorem File.phdrs_congr {file' : File} (h : file.bytes = file'.bytes) :
    file.phdrs n fileOfs = file'.phdrs n fileOfs := by
  have hseek : ∀ pos, file.seek pos = file'.seek pos := by
    intro pos
    cases file
    cases file'
    cases h
    rfl
  induction n generalizing fileOfs with
  | zero => rfl
  | succ n ih => rw [File.phdrs, File.phdrs, hseek, ih]

theorem File.phdrs_read {size : Nat} : (file.read size).2.phdrs n fileOfs = file.phdrs n fileOfs :=
  File.phdrs_congr rfl

theorem File.phdrs_seek {pos : Nat} : (file.seek pos).phdrs n fileOfs = file.phdrs n fileOfs :=
  File.phdrs_congr rfl

/-- The headers among them whose segments are loaded. -/
def loadable (phdrs : List Phdr) : List Phdr := phdrs.filter fun phdr => phdr.p_type = PT_LOAD

def File.segments (file : File) : List Phdr :=
  loadable (file.phdrs file.ehdr.e_phnum (toInt32 file.ehdr.e_phoff))

/-- No segment ends on a higher page than the last one. -/
def LastHighest (segs : List Phdr) : Prop :=
  ∃ last, segs.getLast? = some last ∧ ∀ s ∈ segs, s.endPage ≤ last.endPage

instance (segs : List Phdr) : Decidable (LastHighest segs) :=
  decidable_of_iff (∃ last ∈ segs.getLast?, ∀ s ∈ segs, s.endPage ≤ last.endPage) Iff.rfl

/-- The heap starts at a page boundary above all segments, and no page from there up to the
stack page is mapped. -/
structure HeapAbove (p : Process) (segs : List Phdr) : Prop where
  aligned : pgOfs p.startOfHeap = 0
  nonzero : p.startOfHeap ≠ 0
  above : ∀ s ∈ segs, s.p_vaddr + s.p_memsz ≤ p.startOfHeap
  unmapped : ∀ va, p.startOfHeap ≤ va → va < PHYS_BASE - PGSIZE → p.mm.page (pgNo va) = none

/-! ### The pages of a segment -/

theorem installPage_same {pool : List Nat} {writable avail : Bool} (hm : m.Sound) (hf : m.Fresh)
    (hp : p < userPages) (hpool : m.pool = kpage :: pool)
    (h : Mm.installPage { m with used := kpage :: m.used, pool } (pageAddr p) kpage writable avail =
      .ok (true, m')) (hq : q ≠ p) : m'.page q = m.page q := by
  have hnone : m.page p = none := installPage_unmapped hp h
  obtain ⟨b, pd', hset, -, -, -, hpd, -⟩ := hm.setPage_page hf hpool hp hnone writable avail
  have hnone' : m.pagedir.page p = none := hnone
  unfold Mm.installPage at h
  rw [PageDir.getPage_page hp, ok_bind, hnone'] at h
  dsimp only [Option.map_none, Option.isSome_none] at h
  rw [if_neg (by simp), hset, ok_bind] at h
  obtain ⟨rfl, rfl⟩ := Prod.mk.inj (Except.ok.inj h)
  rw [if_pos rfl] at hpd
  show pd'.page q = m.page q
  rw [hpd, Function.update_of_ne hq]

/-- A segment's loop maps no other page. -/
theorem loadPages_same {writable : Bool} {readBytes zeroBytes : Nat} (hm : m.Sound) (hf : m.Fresh)
    (hp : p + n ≤ userPages)
    (h : loadPages tables writable n m file (pageAddr p) readBytes zeroBytes = .ok (some m')) :
    ∀ q, (q < p ∨ p + n ≤ q) → m'.page q = m.page q := by
  induction n generalizing m file p readBytes zeroBytes with
  | zero =>
      intro q _
      obtain rfl := Option.some.inj (Except.ok.inj h)
      rfl
  | succ n ih =>
      intro q hq
      have hpu : p < userPages := by omega
      by_cases hnone : readBytes = 0 ∧ zeroBytes = 0
      · unfold loadPages at h
        rw [if_pos hnone] at h
        obtain rfl := Option.some.inj (Except.ok.inj h)
        rfl
      · obtain ⟨m₁, file', ⟨kpage, pool, _, _, hpool, hinst⟩, hload⟩ := loadPages_succ hpu hnone h
        obtain ⟨hm₁, hf₁, -⟩ := installPage_eq_ok hm hf hpu hpool hinst
        have hqp : q ≠ p := by omega
        calc m'.page q
          _ = m₁.page q := ih hm₁ hf₁ (by omega) hload q (by omega)
          _ = m.page q := installPage_same hm hf hpu hpool hinst hqp

/-! ### The loop over the headers -/

/-- The segments loaded so far, and where they leave the heap. -/
structure Process.Holding (t : Process) (segs : List Phdr) : Prop where
  start : t.startOfHeap = (segs.getLast?.map fun s => pageAddr s.endPage).getD 0
  low : ∀ s ∈ segs, PGSIZE ≤ s.p_vaddr
  pages : ∀ q, t.mm.page q ≠ none → ∃ s ∈ segs, q < s.endPage

theorem loadPhdr_holding {phdr : Phdr} (ht : t.Loading) (hsegs : t.Holding segs)
    (hv : phdr.p_vaddr < 2 ^ 32) (hs : phdr.p_memsz < 2 ^ 32)
    (h : loadPhdr tables t file phdr = .ok (some t')) : t'.Holding (segs ++ [phdr]) := by
  obtain ⟨n, file', readBytes, zeroBytes, mm, hn, hpages, hend, hlow, hsum, hload, rfl⟩ :=
    loadPhdr_run hv hs h
  have hsame := loadPages_same ht.sound ht.fresh hpages hload
  refine ⟨?_, ?_, ?_⟩
  · simp [hend]
  · intro s hs
    rcases List.mem_append.mp hs with hs | hs
    · exact hsegs.low s hs
    · rw [List.mem_singleton.mp hs]
      exact hlow
  · intro q hq
    by_cases hin : q < phdr.endPage
    · exact ⟨phdr, by simp, hin⟩
    · have hold : t.mm.page q ≠ none := by
        rw [← hsame q (Or.inr (by omega))]
        exact hq
      obtain ⟨s, hs, hlt⟩ := hsegs.pages q hold
      exact ⟨s, by simp [hs], hlt⟩

/-- The loop over the program headers keeps what is said of the segments that it has loaded,
whose list it extends. By induction on the headers. -/
theorem loadPhdrs_holding (ht : t.Loading) (hsegs : t.Holding segs)
    (h : loadPhdrs tables n t file fileOfs = .ok (some t')) :
    t'.Holding (segs ++ loadable (file.phdrs n fileOfs)) := by
  induction n generalizing t file fileOfs segs with
  | zero =>
      obtain rfl := Option.some.inj (Except.ok.inj h)
      simpa [File.phdrs, loadable] using hsegs
  | succ n ih =>
      obtain ⟨t₁, hphdr, hrest⟩ := loadPhdrs_succ h
      unfold File.phdrs loadable
      split at hphdr
      · -- a segment that is loaded
        rename_i hload
        have ht₁ := loadPhdr_eq_ok ht (word_lt _ _) (word_lt _ _) hphdr
        have hsegs₁ := loadPhdr_holding ht hsegs (word_lt _ _) (word_lt _ _) hphdr
        have htail := ih ht₁ hsegs₁ hrest
        rw [List.append_assoc, File.phdrs_read, File.phdrs_seek] at htail
        rw [List.filter_cons_of_pos (by simpa using hload)]
        exact htail
      · rename_i hload
        subst hphdr
        have htail := ih ht hsegs hrest
        rw [File.phdrs_read, File.phdrs_seek] at htail
        rw [List.filter_cons_of_neg (by simpa using hload)]
        exact htail

/-! ### The process -/

theorem setupStack_same {esp : Nat} {mm : Mm} (ht : t.Loading)
    (h : setupStack tables t.mm = .ok (some (esp, mm))) (hq : q ≠ stackPage) :
    mm.page q = t.mm.page q := by
  have hsp : stackPage < userPages := by decide
  obtain ⟨kpage, pool, _, _, hpool, hinst⟩ := setupStack_maps h
  exact installPage_same ht.sound ht.fresh hsp hpool hinst hq

/-- What is mapped in an accepted executable, and where its heap starts. -/
theorem load_holding {pagedir : Bool} {pool : List Nat} {l : Loaded} (hpool : pool.Nodup)
    (h : load pagedir pool tables (some file) = .ok (some l)) :
    ∃ t : Process, t.Holding file.segments ∧ l.process.startOfHeap = t.startOfHeap ∧
      ∀ q, q ≠ stackPage → l.process.mm.page q = t.mm.page q := by
  unfold load at h
  split at h
  · exact absurd h (by simp)
  · dsimp only at h
    split at h
    · exact absurd h (by simp)
    · have hempty : ∀ p, (⟨fun _ => none, [], pool⟩ : Mm).page p = none := fun _ => rfl
      have hinit := Process.loading_init hpool
      have hnone : Process.Holding ⟨⟨fun _ => none, [], pool⟩, 0, 0, 0, 0⟩ [] := by
        refine ⟨rfl, by simp, fun q hq => absurd (hempty q) hq⟩
      obtain ⟨r, hphdrs, h⟩ := bind_eq_ok h
      cases r with
      | none => exact absurd h (by simp)
      | some t =>
          have ht := loadPhdrs_eq_ok hinit hphdrs
          have hsegs := loadPhdrs_holding hinit hnone hphdrs
          rw [List.nil_append, File.phdrs_read] at hsegs
          obtain ⟨r, hstack, h⟩ := bind_eq_ok h
          cases r with
          | none => exact absurd h (by simp)
          | some r =>
              obtain ⟨esp, mm⟩ := r
              obtain rfl := Option.some.inj (Except.ok.inj h)
              exact ⟨t, hsegs, rfl, fun q hq => setupStack_same ht hstack hq⟩

theorem le_pageAddr_endPage (s : Phdr) : s.p_vaddr + s.p_memsz ≤ pageAddr s.endPage := by
  unfold pageAddr Phdr.endPage PGSIZE
  omega

theorem endPage_le {s : Phdr} {p : Nat} (h : s.p_vaddr + s.p_memsz ≤ pageAddr p) :
    s.endPage ≤ p := by
  unfold pageAddr Phdr.endPage PGSIZE at *
  omega

theorem pgNo_ne_stackPage {va : Nat} (h : va < PHYS_BASE - PGSIZE) : pgNo va ≠ stackPage := by
  have hstack : stackPage = (PHYS_BASE - PGSIZE) / PGSIZE := by decide
  have hmul : (PHYS_BASE - PGSIZE) / PGSIZE * PGSIZE = PHYS_BASE - PGSIZE := by decide
  rw [hstack]
  refine Nat.ne_of_lt (Nat.div_lt_of_lt_mul ?_)
  rwa [Nat.mul_comm, hmul]

/-- **Where the heap starts.** For every accepted executable the heap starts above all that
was loaded exactly if there is a `PT_LOAD` header and none ends on a higher page than the
last. Each segment sets the start anew, so that after the loop it is the end of the last
one. -/
theorem heap_start_iff {pagedir : Bool} {pool : List Nat} {l : Loaded} (hpool : pool.Nodup)
    (h : load pagedir pool tables (some file) = .ok (some l)) :
    HeapAbove l.process file.segments ↔ LastHighest file.segments := by
  obtain ⟨t, hsegs, hstart, hsame⟩ := load_holding hpool h
  have hheap := hsegs.start
  constructor
  · intro habove
    cases hlast : file.segments.getLast? with
    | none =>
        rw [hlast] at hheap
        exact absurd (hstart.trans hheap) habove.nonzero
    | some last =>
        rw [hlast] at hheap
        refine ⟨last, hlast, ?_⟩
        intro s hs
        apply endPage_le
        rw [← show l.process.startOfHeap = pageAddr last.endPage from hstart.trans hheap]
        exact habove.above s hs
  · rintro ⟨last, hlast, hhigh⟩
    rw [hlast] at hheap
    have hval : l.process.startOfHeap = pageAddr last.endPage := hstart.trans hheap
    have hmem : last ∈ file.segments := List.mem_of_getLast? hlast
    refine ⟨?_, ?_, ?_, ?_⟩
    · rw [hval, pgOfs_pageAddr]
    · have hlow := hsegs.low last hmem
      have hend := le_pageAddr_endPage last
      rw [hval]
      unfold PGSIZE at hlow
      omega
    · intro s hs
      rw [hval]
      exact (le_pageAddr_endPage s).trans (Nat.mul_le_mul_right PGSIZE (hhigh s hs))
    · intro va hlow hva
      rw [hsame _ (pgNo_ne_stackPage hva)]
      by_contra hmapped
      obtain ⟨s, hs, hlt⟩ := hsegs.pages _ hmapped
      have hle := hhigh s hs
      rw [hval] at hlow
      have hpage := pgNo_le hlow
      rw [pgNo_pageAddr] at hpage
      omega

/-- The program at `0x08048000`: its one segment is the last. -/
theorem heap_start_sample : HeapAbove sample.process (program 0x08048000).segments :=
  (heap_start_iff (by decide) load_sample).mpr (by decide +kernel)

/-- An executable with two segments, a page of zeros at `0x08049000` and one below it. -/
def descending : File where
  bytes :=
    elfMagic ++ List.replicate 9 0 ++ halfBytes 2 ++ halfBytes 3 ++ wordBytes 1 ++
      wordBytes 0x08048000 ++ wordBytes sizeofEhdr ++ wordBytes 0 ++ wordBytes 0 ++
      halfBytes sizeofEhdr ++ halfBytes sizeofPhdr ++ halfBytes 2 ++ halfBytes 0 ++ halfBytes 0 ++
      halfBytes 0 ++
      [0x08049000, 0x08048000].flatMap fun vaddr =>
        wordBytes PT_LOAD ++ wordBytes 0 ++ wordBytes vaddr ++ wordBytes vaddr ++ wordBytes 0 ++
          wordBytes 1 ++ wordBytes 7 ++ wordBytes PGSIZE
  pos := 0
  length_lt := Nat.lt_of_le_of_lt (m := 116) (Nat.le_of_eq rfl) (by decide)

/-- Its heap starts at the page that the first segment is on. -/
theorem descending_overlaps :
    ¬ ∀ (pool : List Nat) (tables : Nat → Bool) (file : File) (l : Loaded),
    pool.Nodup → load true pool tables (some file) = .ok (some l) →
      HeapAbove l.process file.segments := by
  intro hall
  have hload := @eq_ok_get (load true [1, 2, 3] (fun _ => true) (some descending))
    (by decide +kernel)
  have habove := (hall _ _ _ _ (by decide) hload).above
  exact absurd habove (by decide +kernel)

end OsTools.Vm

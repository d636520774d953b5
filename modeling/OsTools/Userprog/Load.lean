import OsTools.Vm.Load
/-!
# OsTools.Userprog.Load

`load` of the pregame kernel's `userprog/process.c`, with the contents of the
pages it fills. The header formats, `validate_segment`, the page directory and
the user pool are those of `OsTools.Vm`: the two kernels share these files.

Every assertion on the way is a `Fault`, and so is every unsigned operation of
the loader whose result does not fit: the code does not notice a wrap, the
model stops there. The one exception is `validate_segment`, which computes its
sum modulo `2 ^ 32` before it checks it.

The environment decides which frames the user pool hands out (`FreePages`), for
which pages a page table can be created (`tables`), whether `pagedir_create`
succeeds, and which reads come out short (`OpenFile.short`).

## Proof shape

`Good` is the invariant: the page directory is sound, and what the pool has still to give is
not in use. `Extends` is the order in which the loader changes memory: what is mapped stays
mapped, to the same bytes. A segment once loaded stays so in all later states
(`SegmentLoaded.mono`), which is why each segment can be considered alone, and why the
induction over the headers has nothing to say of the earlier ones but that.

From the bottom up: `installPage_spec` for one page, which is new, since the page directory
had nothing there; `loadPages_spec` for the pages of a segment, by induction on how many are
left, with the bytes of the rest of the segment as the conclusion (`userByte_segment` puts
the first page in front); `segmentLoaded` for the rounding, from what is computed by pages
to what the header says in bytes; and `loadPhdrs_spec` by induction on the headers.

That there is no wrap in the arithmetic is not assumed. It follows from what
`validate_segment` has checked (`SegmentShape`), and every operation that would wrap is a
`Fault`, so that the absence of faults says it.
-/

namespace OsTools.Userprog

open OsTools.Vm
open Function (update)

/-- The assertions `load` reaches, and the failures the code cannot see. -/
inductive Fault
  /-- One of `pagedir_get_page`, `pagedir_set_page`, `palloc_free_page`. -/
  | vm (p : Panic)
  /-- `file_seek`: the position is not negative. -/
  | seek
  /-- One of the three of `load_segment`. -/
  | segment
  /-- An arithmetic result that does not fit. -/
  | wrap
  /-- A loop that did not end. -/
  | diverges
  deriving DecidableEq

/-- A call into `OsTools.Vm`. -/
def ofVm {α : Type} : Except Panic α → Except Fault α
  | .error p => .error (.vm p)
  | .ok a => .ok a

/-- `a + b` on `uint32_t`. -/
def addU (a b : Nat) : Except Fault Nat := if a + b < 2 ^ 32 then .ok (a + b) else .error .wrap

/-- `a - b` on `uint32_t`. -/
def subU (a b : Nat) : Except Fault Nat := if b ≤ a then .ok (a - b) else .error .wrap

/-- An open file. `short` bounds what the next reads can transfer, in their
order, where the kernel has no memory for a bounce buffer. -/
structure OpenFile extends File where
  short : List Nat

/-- The frames that the user pool hands out next: no frame twice. -/
structure FreePages where
  frames : List Nat
  nodup : frames.Nodup

/-- What `load` works on: the address space, the bytes of the frames, the file. -/
structure Loader where
  mm : Mm
  phys : Nat → Nat → UInt8
  file : OpenFile

namespace Loader

/-- `file_seek`. -/
def fileSeek (s : Loader) (newPos : Int) : Except Fault Loader :=
  -- ASSERT (new_pos >= 0)
  if newPos < 0 then .error .seek
  else .ok { s with file := { s.file with pos := newPos.toNat } }

/-- `file_read`: the bytes, and the loader behind them. -/
def fileRead (s : Loader) (size : Nat) : List UInt8 × Loader :=
  let size := match s.file.short with
    | [] => size
    | limit :: _ => min size limit
  let (buffer, file) := s.file.toFile.read size
  (buffer, { s with file := { file with short := s.file.short.tail } })

/-- `palloc_get_page (PAL_USER)`. -/
def pallocGetPage (s : Loader) : Option (Nat × Loader) :=
  s.mm.pallocGetPage.map fun (kpage, mm) => (kpage, { s with mm })

/-- `palloc_free_page (kpage)`. -/
def pallocFreePage (s : Loader) (kpage : Nat) : Except Fault Loader := do
  let mm ← ofVm (s.mm.pallocFreePage (some (kpage, 0)))
  .ok { s with mm }

/-- `memcpy (kpage, buffer, ...)` in `file_read`, and `memset` of the rest. -/
def fillPage (s : Loader) (kpage : Nat) (buffer : List UInt8) : Loader :=
  { s with phys := update s.phys kpage fun i => buffer.getD i 0 }

/-- `install_page`. -/
def installPage (s : Loader) (upage kpage : Nat) (writable avail : Bool) :
    Except Fault (Bool × Loader) := do
  let (success, mm) ← ofVm (s.mm.installPage upage kpage writable avail)
  .ok (success, { s with mm })

/-- The loop of `load_segment`, for at most `fuel` pages. -/
def loadPages (tables : Nat → Bool) (writable : Bool) :
    Nat → Loader → Nat → Nat → Nat → Except Fault (Bool × Loader)
  | fuel, s, upage, readBytes, zeroBytes =>
      if readBytes = 0 ∧ zeroBytes = 0 then .ok (true, s)
      else
        match fuel with
        | 0 => .error .diverges
        | fuel + 1 =>
            -- calculate how to fill this page
            let pageReadBytes := if readBytes < PGSIZE then readBytes else PGSIZE
            let pageZeroBytes := PGSIZE - pageReadBytes
            match s.pallocGetPage with
            | none => .ok (false, s)
            | some (kpage, s) => do
                let (buffer, s) := s.fileRead pageReadBytes
                if buffer.length ≠ pageReadBytes then
                  let s ← s.pallocFreePage kpage
                  .ok (false, s)
                else
                  let s := s.fillPage kpage buffer
                  let (success, s) ← s.installPage upage kpage writable (tables (pgNo upage))
                  if success then
                    let readBytes ← subU readBytes pageReadBytes
                    let zeroBytes ← subU zeroBytes pageZeroBytes
                    let upage ← addU upage PGSIZE
                    loadPages tables writable fuel s upage readBytes zeroBytes
                  else
                    let s ← s.pallocFreePage kpage
                    .ok (false, s)

/-- `load_segment`. -/
def loadSegment (tables : Nat → Bool) (s : Loader) (ofs : Int)
    (upage readBytes zeroBytes : Nat) (writable : Bool) : Except Fault (Bool × Loader) := do
  let total ← addU readBytes zeroBytes
  if total % PGSIZE ≠ 0 then .error .segment
  else if pgOfs upage ≠ 0 then .error .segment
  else if ofs % PGSIZE ≠ 0 then .error .segment
  else
    let s ← s.fileSeek ofs
    loadPages tables writable (total / PGSIZE) s upage readBytes zeroBytes

/-- `ROUND_UP (n, PGSIZE)`. -/
def roundUp (n : Nat) : Except Fault Nat := do
  let sum ← addU n (PGSIZE - 1)
  .ok (sum / PGSIZE * PGSIZE)

/-- The case `PT_LOAD` of the loop. -/
def loadPhdr (tables : Nat → Bool) (s : Loader) (phdr : Phdr) : Except Fault (Bool × Loader) :=
  if validateSegment phdr s.file.toFile then do
    let filePage := pgRoundDown phdr.p_offset
    let memPage := pgRoundDown phdr.p_vaddr
    let pageOffset := pgOfs phdr.p_vaddr
    let memEnd ← addU pageOffset phdr.p_memsz
    let total ← roundUp memEnd
    if 0 < phdr.p_filesz then
      -- read initial part from disk and zero the rest
      let readBytes ← addU pageOffset phdr.p_filesz
      let zeroBytes ← subU total readBytes
      loadSegment tables s (toInt32 filePage) memPage readBytes zeroBytes phdr.writable
    else
      -- entirely zero
      loadSegment tables s (toInt32 filePage) memPage 0 total phdr.writable
  else .ok (false, s)

/-- `file_ofs += sizeof phdr`, on `off_t`. -/
def nextPhdr (fileOfs : Int) : Except Fault Int :=
  if fileOfs + sizeofPhdr < 2 ^ 31 then .ok (fileOfs + sizeofPhdr) else .error .wrap

/-- The loop over the program headers. -/
def loadPhdrs (tables : Nat → Bool) : Nat → Loader → Int → Except Fault (Bool × Loader)
  | 0, s, _ => .ok (true, s)
  | n + 1, s, fileOfs =>
      if fileOfs < 0 ∨ s.file.length < fileOfs then .ok (false, s)
      else do
        let s ← s.fileSeek fileOfs
        let (buffer, s) := s.fileRead sizeofPhdr
        if buffer.length ≠ sizeofPhdr then .ok (false, s)
        else
          let phdr := Phdr.ofBytes buffer
          let fileOfs ← nextPhdr fileOfs
          if phdr.p_type = PT_DYNAMIC ∨ phdr.p_type = PT_INTERP ∨ phdr.p_type = PT_SHLIB then
            .ok (false, s)
          else if phdr.p_type = PT_LOAD then
            let (success, s) ← loadPhdr tables s phdr
            if success then loadPhdrs tables n s fileOfs else .ok (false, s)
          else loadPhdrs tables n s fileOfs

/-- `setup_stack`. -/
def setupStack (tables : Nat → Bool) (s : Loader) : Except Fault (Bool × Loader) :=
  match s.pallocGetPage with
  | none => .ok (false, s)
  | some (kpage, s) => do
      let s := s.fillPage kpage []
      let upage ← subU PHYS_BASE PGSIZE
      let (success, s) ← s.installPage upage kpage true (tables (pgNo upage))
      if success then .ok (true, s)
      else
        let s ← s.pallocFreePage kpage
        .ok (false, s)

/-- The checks of `load` on the executable header. -/
def ehdrOk (buffer : List UInt8) : Bool :=
  let ehdr := Ehdr.ofBytes buffer
  buffer.length = sizeofEhdr ∧ ehdr.e_ident.take 7 = elfMagic ∧ ehdr.e_type = 2 ∧
    ehdr.e_machine = 3 ∧ ehdr.e_version = 1 ∧ ehdr.e_phentsize = sizeofPhdr ∧
    ¬ 1024 < ehdr.e_phnum

/-- The executable header of a file. -/
def ehdrOf (file : OpenFile) : Ehdr := Ehdr.ofBytes (file.bytes.take sizeofEhdr)

/-- `load`: whether it succeeds, the entry point and the initial stack pointer
if so, and the address space. `pagedir` says whether `pagedir_create` succeeds;
`file` is what `filesys_open` returns, at position 0. -/
def load (pagedir : Bool) (pool : FreePages) (tables : Nat → Bool) (phys : Nat → Nat → UInt8)
    (file : Option OpenFile) : Except Fault (Option (Loader × Nat × Nat)) :=
  if ¬ pagedir then .ok none
  else
    match file with
    | none => .ok none
    | some file =>
        let s : Loader :=
          ⟨⟨fun _ => none, [], pool.frames⟩, phys, { file with pos := 0 }⟩
        let (buffer, s) := s.fileRead sizeofEhdr
        if ¬ ehdrOk buffer then .ok none
        else do
          let ehdr := Ehdr.ofBytes buffer
          let (success, s) ← loadPhdrs tables ehdr.e_phnum s (toInt32 ehdr.e_phoff)
          if ¬ success then .ok none
          else
            let (success, s) ← setupStack tables s
            if success then .ok (some (s, ehdr.e_entry, PHYS_BASE - 0x14)) else .ok none

/-! ### What a loaded segment is -/

/-- The byte at a user address, if its page is mapped. -/
def userByte (s : Loader) (va : Nat) : Option UInt8 :=
  (s.mm.page (pgNo va)).map fun pte => s.phys pte.frame (pgOfs va)

/-- The pages that hold a byte of the segment. -/
def segmentPage (phdr : Phdr) (p : Nat) : Prop :=
  pgNo phdr.p_vaddr ≤ p ∧ p ≤ pgNo (phdr.p_vaddr + phdr.p_memsz - 1)

/-- The segment of `phdr` is in memory: its pages are mapped and lie in
`[PGSIZE, PHYS_BASE)`, its first `p_filesz` bytes are those of the file at
`p_offset`, all of them there, and the rest up to `p_memsz` is zero. -/
structure SegmentLoaded (s : Loader) (phdr : Phdr) : Prop where
  size : phdr.p_filesz ≤ phdr.p_memsz
  pages : ∀ p, segmentPage phdr p →
    s.mm.page p ≠ none ∧ PGSIZE ≤ pageAddr p ∧ pageAddr p + PGSIZE ≤ PHYS_BASE
  inFile : phdr.p_offset + phdr.p_filesz ≤ s.file.length
  bytes : ∀ k, k < phdr.p_filesz →
    s.userByte (phdr.p_vaddr + k) = s.file.bytes[phdr.p_offset + k]?
  zeros : ∀ k, phdr.p_filesz ≤ k → k < phdr.p_memsz →
    s.userByte (phdr.p_vaddr + k) = some 0

/-! ### One page -/

/-- The state of a load that has not failed. -/
structure Good (s : Loader) : Prop where
  sound : s.mm.Sound
  fresh : s.mm.Fresh

/-- What was mapped stays mapped, to the same bytes. -/
structure Extends (s s' : Loader) : Prop where
  file : s'.file.bytes = s.file.bytes
  pages : ∀ p e, s.mm.page p = some e →
    s'.mm.page p = some e ∧ s'.phys e.frame = s.phys e.frame

theorem Extends.refl (s : Loader) : Extends s s := ⟨rfl, fun _ _ h => ⟨h, rfl⟩⟩

theorem Extends.trans {s s₁ s' : Loader} (h₁ : Extends s s₁) (h₂ : Extends s₁ s') :
    Extends s s' where
  file := h₂.file.trans h₁.file
  pages := fun p e h => by
    obtain ⟨hp₁, hb₁⟩ := h₁.pages p e h
    obtain ⟨hp₂, hb₂⟩ := h₂.pages p e hp₁
    exact ⟨hp₂, hb₂.trans hb₁⟩

theorem Extends.mapped {s s' : Loader} (h : Extends s s') {p : Nat} (hp : s.mm.page p ≠ none) :
    s'.mm.page p ≠ none := by
  obtain ⟨e, he⟩ := Option.ne_none_iff_exists'.mp hp
  rw [(h.pages p e he).1]
  simp

theorem Extends.userByte {s s' : Loader} (h : Extends s s') {va : Nat}
    (hp : s.mm.page (pgNo va) ≠ none) : s'.userByte va = s.userByte va := by
  obtain ⟨e, he⟩ := Option.ne_none_iff_exists'.mp hp
  obtain ⟨he', hb⟩ := h.pages _ e he
  unfold Loader.userByte
  rw [he, he', Option.map_some, Option.map_some, hb]

/-- A later state still has the segment. -/
theorem SegmentLoaded.mono {s s' : Loader} {phdr : Phdr} (h : s.SegmentLoaded phdr)
    (hext : Extends s s') : s'.SegmentLoaded phdr := by
  have hpage : ∀ k, k < phdr.p_memsz → s.mm.page (pgNo (phdr.p_vaddr + k)) ≠ none := by
    intro k hk
    exact (h.pages _ ⟨pgNo_le (by omega), pgNo_le (by omega)⟩).1
  refine ⟨h.size, fun p hp => ?_, ?_, fun k hk => ?_, fun k h₁ h₂ => ?_⟩
  · obtain ⟨hmapped, hbounds⟩ := h.pages p hp
    exact ⟨hext.mapped hmapped, hbounds⟩
  · unfold File.length
    rw [hext.file]
    exact h.inFile
  · rw [hext.userByte (hpage k (hk.trans_le h.size)), hext.file]
    exact h.bytes k hk
  · rw [hext.userByte (hpage k h₂)]
    exact h.zeros k h₁ h₂

/-- `install_page` of a frame the pool has just handed out. -/
theorem vmInstallPage_spec {m : Mm} (hm : m.Sound) (hf : m.Fresh) {kpage p : Nat}
    {pool : List Nat} (hpool : m.pool = kpage :: pool) (hp : p < userPages)
    (writable avail : Bool) :
    ∃ b m', Mm.installPage { m with used := kpage :: m.used, pool } (pageAddr p) kpage writable
        avail = .ok (b, m') ∧ kpage ∈ m'.used ∧
      (b = true → m'.Sound ∧ m'.Fresh ∧ m.page p = none ∧
        m'.page = update m.page p (some ⟨kpage, writable⟩)) := by
  unfold Mm.installPage
  rw [PageDir.getPage_page hp, ok_bind]
  cases hpage : m.pagedir.page p with
  | some e =>
      exact ⟨false, _, rfl, List.mem_cons_self, fun h => by cases h⟩
  | none =>
      obtain ⟨b, pd', hset, -, hsound, hfresh, hpd, -⟩ :=
        hm.setPage_page hf hpool hp hpage writable avail
      refine ⟨b, ⟨pd', kpage :: m.used, pool⟩, ?_, List.mem_cons_self, fun hb => ?_⟩
      · simp only [Option.map_none, Option.isSome_none, Bool.false_eq_true, if_false, hset,
          ok_bind]
      · rw [hb, if_pos rfl] at hpd
        exact ⟨hsound, hfresh, hpage, hpd⟩

/-- The same on the loader, once the frame is filled: the page is new, its bytes
are the buffer and zeros, and what was mapped stays. -/
theorem installPage_spec {s : Loader} (hs : Good s) {kpage p : Nat} {pool : List Nat}
    (hpool : s.mm.pool = kpage :: pool) (hp : p < userPages) (file : OpenFile)
    (hfile : file.bytes = s.file.bytes) (buffer : List UInt8) (writable avail : Bool) :
    ∃ b s', installPage
        ⟨{ s.mm with used := kpage :: s.mm.used, pool },
          update s.phys kpage fun i => buffer.getD i 0, file⟩
        (pageAddr p) kpage writable avail = .ok (b, s') ∧ kpage ∈ s'.mm.used ∧ s'.file = file ∧
      (b = true → Good s' ∧ Extends s s' ∧ s'.mm.page p = some ⟨kpage, writable⟩ ∧
        s'.phys kpage = fun i => buffer.getD i 0) := by
  obtain ⟨b, m', hinst, hused, hok⟩ :=
    vmInstallPage_spec hs.sound hs.fresh hpool hp writable avail
  refine ⟨b, ⟨m', update s.phys kpage fun i => buffer.getD i 0, file⟩, ?_, hused, rfl, fun hb => ?_⟩
  · unfold installPage
    rw [hinst]
    rfl
  · obtain ⟨hsound, hfresh, hnone, hpage⟩ := hok hb
    refine ⟨⟨hsound, hfresh⟩, ⟨hfile, fun q e hq => ?_⟩, ?_, ?_⟩
    · have hne : q ≠ p := fun h => by
        rw [h, hnone] at hq
        cases hq
      -- a mapped page has a frame in use, and the new frame is not
      have hframe : e.frame ≠ kpage := fun h => by
        have hmem := hs.sound.used q e hq
        rw [h] at hmem
        exact hs.fresh.fresh kpage (by rw [hpool]; exact List.mem_cons_self) hmem
      constructor
      · show m'.page q = some e
        rw [hpage, Function.update_of_ne hne]
        exact hq
      · show update s.phys kpage _ e.frame = s.phys e.frame
        rw [Function.update_of_ne hframe]
    · show m'.page p = _
      rw [hpage, Function.update_self]
    · exact Function.update_self _ _ _

theorem pallocFreePage_spec {s : Loader} {kpage : Nat} (h : kpage ∈ s.mm.used) :
    ∃ s', s.pallocFreePage kpage = .ok s' := by
  unfold pallocFreePage Mm.pallocFreePage
  dsimp only
  rw [if_neg (by simp), if_pos h]
  exact ⟨_, rfl⟩

/-- `file_read`, given what bounds it. -/
theorem fileRead_eq (s : Loader) (size : Nat) : ∃ limit, limit ≤ size ∧
    s.fileRead size = ((s.file.bytes.drop s.file.pos).take limit,
      { s with file := ⟨⟨s.file.bytes,
        s.file.pos + ((s.file.bytes.drop s.file.pos).take limit).length, s.file.length_lt⟩,
        s.file.short.tail⟩ }) := by
  unfold fileRead
  cases s.file.short with
  | nil => exact ⟨size, Nat.le_refl _, rfl⟩
  | cons limit _ => exact ⟨min size limit, Nat.min_le_left _ _, rfl⟩

/-- A full read: the bytes at the position. -/
theorem fileRead_spec (s : Loader) (size : Nat) :
    ∃ buffer file, s.fileRead size = (buffer, { s with file }) ∧
      file.bytes = s.file.bytes ∧
      (buffer.length = size → file.pos = s.file.pos + size ∧
        ∀ k, buffer[k]? = if k < size then s.file.bytes[s.file.pos + k]? else none) := by
  obtain ⟨limit, hle, hread⟩ := fileRead_eq s size
  refine ⟨_, _, hread, rfl, fun hlen => ⟨congrArg (s.file.pos + ·) hlen, fun k => ?_⟩⟩
  have hlimit : limit = size := by
    rw [List.length_take] at hlen
    omega
  rw [hlimit, List.getElem?_take, List.getElem?_drop]

/-! ### A segment -/

theorem pgNo_pageAddr_add {p k : Nat} (hk : k < PGSIZE) : pgNo (pageAddr p + k) = p := by
  unfold pgNo pageAddr PGSIZE at *
  omega

theorem pgOfs_pageAddr_add {p k : Nat} (hk : k < PGSIZE) : pgOfs (pageAddr p + k) = k := by
  unfold pgOfs pageAddr PGSIZE at *
  omega

theorem addU_eq {a b : Nat} (h : a + b < 2 ^ 32) : addU a b = .ok (a + b) := if_pos h

theorem subU_eq {a b : Nat} (h : b ≤ a) : subU a b = .ok (a - b) := if_pos h

theorem pallocGetPage_cases (s : Loader) :
    s.pallocGetPage = none ∨ ∃ kpage pool, s.mm.pool = kpage :: pool ∧ s.pallocGetPage =
      some (kpage, { s with mm := { s.mm with used := kpage :: s.mm.used, pool } }) := by
  unfold pallocGetPage Mm.pallocGetPage
  cases s.mm.pool with
  | nil => exact Or.inl rfl
  | cons kpage pool => exact Or.inr ⟨kpage, pool, rfl, rfl⟩

/-- The bytes of a page filled from a full read of its first `size` bytes. -/
theorem userByte_page {s : Loader} {p kpage size : Nat} {writable : Bool} {buffer : List UInt8}
    {get : Nat → Option UInt8} (hpage : s.mm.page p = some ⟨kpage, writable⟩)
    (hphys : s.phys kpage = fun i => buffer.getD i 0) (hlen : buffer.length = size)
    (hbuffer : ∀ k, buffer[k]? = if k < size then get k else none) {k : Nat} (hk : k < PGSIZE) :
    s.userByte (pageAddr p + k) = if k < size then get k else some 0 := by
  unfold userByte
  rw [pgNo_pageAddr_add hk, pgOfs_pageAddr_add hk, hpage, Option.map_some]
  dsimp only
  rw [hphys]
  dsimp only
  rw [List.getD_eq_getElem?_getD]
  by_cases h : k < size
  · rw [if_pos h, ← (hbuffer k).trans (if_pos h), List.getElem?_eq_getElem (hlen ▸ h)]
    rfl
  · rw [if_neg h, (hbuffer k).trans (if_neg h)]
    rfl

theorem pageAddr_succ (p : Nat) : pageAddr p + PGSIZE = pageAddr (p + 1) := by
  unfold pageAddr
  rw [Nat.succ_mul]

/-- What is left of a segment behind its first page. -/
theorem segment_rest {n readBytes zeroBytes pageReadBytes : Nat}
    (hpage : (if readBytes < PGSIZE then readBytes else PGSIZE) = pageReadBytes)
    (hsum : readBytes + zeroBytes = (n + 1) * PGSIZE) :
    pageReadBytes ≤ readBytes ∧ PGSIZE - pageReadBytes ≤ zeroBytes ∧
      readBytes - pageReadBytes + (zeroBytes - (PGSIZE - pageReadBytes)) = n * PGSIZE := by
  rw [Nat.succ_mul] at hsum
  subst hpage
  split <;> omega

/-- The bytes of a segment from those of its first page and of the pages behind it. -/
theorem userByte_segment {s : Loader} {p n readBytes pageReadBytes : Nat} {get : Nat → Option UInt8}
    (hpage : (if readBytes < PGSIZE then readBytes else PGSIZE) = pageReadBytes)
    (hfirst : ∀ k < PGSIZE, s.userByte (pageAddr p + k) =
      if k < pageReadBytes then get k else some 0)
    (hrest : ∀ k < n * PGSIZE, s.userByte (pageAddr (p + 1) + k) =
      if k < readBytes - pageReadBytes then get (pageReadBytes + k) else some 0) {k : Nat}
    (hk : k < (n + 1) * PGSIZE) :
    s.userByte (pageAddr p + k) = if k < readBytes then get k else some 0 := by
  by_cases hin : k < PGSIZE
  · have hiff : k < pageReadBytes ↔ k < readBytes := by
      rw [← hpage]
      split <;> omega
    rw [hfirst k hin]
    simp only [hiff]
  · obtain ⟨j, rfl⟩ : ∃ j, k = PGSIZE + j := ⟨k - PGSIZE, by omega⟩
    have hj : j < n * PGSIZE := by
      rw [Nat.succ_mul] at hk
      omega
    rw [← Nat.add_assoc, pageAddr_succ, hrest j hj]
    by_cases hr : PGSIZE + j < readBytes
    · have hfull : PGSIZE = pageReadBytes := by rw [← hpage, if_neg (by omega)]
      rw [if_pos hr, if_pos (by omega), hfull]
    · have hpast : ¬ j < readBytes - pageReadBytes := by
        rw [← hpage]
        split <;> omega
      rw [if_neg hr, if_neg hpast]

/-- The loop of `load_segment` ends without a fault; if it succeeds, its pages
hold the bytes of the file from the position on, and then zeros. -/
theorem loadPages_spec (tables : Nat → Bool) (writable : Bool) {n : Nat} {s : Loader}
    (hs : Good s) {p readBytes zeroBytes : Nat} (hsum : readBytes + zeroBytes = n * PGSIZE)
    (hp : p + n ≤ userPages) :
    ∃ b s', loadPages tables writable n s (pageAddr p) readBytes zeroBytes = .ok (b, s') ∧
      (b = true → Good s' ∧ Extends s s' ∧
        (∀ q, p ≤ q → q < p + n → s'.mm.page q ≠ none) ∧
        ∀ k, k < n * PGSIZE → s'.userByte (pageAddr p + k) =
          if k < readBytes then s.file.bytes[s.file.pos + k]? else some 0) := by
  induction n generalizing s p readBytes zeroBytes with
  | zero =>
      unfold loadPages
      rw [if_pos (by omega)]
      exact ⟨true, s, rfl, fun _ => ⟨hs, Extends.refl s, fun q h₁ h₂ => by omega,
        fun k hk => by omega⟩⟩
  | succ n ih =>
      have hsome : ¬ (readBytes = 0 ∧ zeroBytes = 0) := by
        unfold PGSIZE at hsum
        omega
      have hpu : p < userPages := by omega
      unfold loadPages
      rw [if_neg hsome]
      dsimp only
      generalize hpage : (if readBytes < PGSIZE then readBytes else PGSIZE) = pageReadBytes
      obtain hnone | ⟨kpage, pool, hpool, hget⟩ := pallocGetPage_cases s
      · rw [hnone]
        -- no page is left
        exact ⟨false, s, rfl, fun h => by cases h⟩
      · rw [hget]
        dsimp only
        obtain ⟨buffer, file, hread, hbytes, hfull⟩ := fileRead_spec
          { s with mm := { s.mm with used := kpage :: s.mm.used, pool } } pageReadBytes
        rw [hread]
        dsimp only
        by_cases hlen : buffer.length = pageReadBytes
        · rw [if_neg (not_not_intro hlen)]
          obtain ⟨hpos, hbuffer⟩ := hfull hlen
          obtain ⟨b, s₁, hinst, hused, hfile, hok⟩ := installPage_spec hs hpool hpu file hbytes
            buffer writable (tables (pgNo (pageAddr p)))
          unfold fillPage
          rw [hinst, ok_bind]
          cases b with
          | false =>
              obtain ⟨s', hfree⟩ := pallocFreePage_spec hused
              dsimp only
              rw [if_neg (by decide), hfree]
              exact ⟨false, s', rfl, fun h => by cases h⟩
          | true =>
              -- the page is filled and mapped, and the loop goes on behind it
              obtain ⟨hgood, hext, hmapped, hphys⟩ := hok rfl
              obtain ⟨hread', hzero, hrest⟩ := segment_rest hpage hsum
              have haddr : pageAddr p + PGSIZE < 2 ^ 32 := by
                unfold pageAddr userPages PHYS_BASE PGSIZE at *
                omega
              dsimp only
              rw [if_pos rfl, subU_eq hread', ok_bind, subU_eq hzero, ok_bind, addU_eq haddr,
                ok_bind, pageAddr_succ]
              obtain ⟨b, s', hloop, hrun⟩ := ih hgood hrest (show p + 1 + n ≤ userPages by omega)
              refine ⟨b, s', hloop, fun hb => ?_⟩
              obtain ⟨hgood', hext', hpages, hbytes'⟩ := hrun hb
              refine ⟨hgood', hext.trans hext', fun q h₁ h₂ => ?_, fun k hk => ?_⟩
              · rcases Nat.eq_or_lt_of_le h₁ with rfl | h₁
                · exact hext'.mapped (by rw [hmapped]; simp)
                · exact hpages q (by omega) (by omega)
              · refine @userByte_segment s' p n readBytes pageReadBytes
                  (fun k => s.file.bytes[s.file.pos + k]?) hpage (fun k hin => ?_) (fun j hj => ?_)
                  k hk
                · have hmapped' : s₁.mm.page (pgNo (pageAddr p + k)) ≠ none := by
                    rw [pgNo_pageAddr_add hin, hmapped]
                    simp
                  rw [hext'.userByte hmapped', userByte_page hmapped hphys hlen hbuffer hin]
                · rw [hbytes' j hj, hfile, hpos, hbytes, Nat.add_assoc]
        · rw [if_pos hlen]
          -- the file is shorter than the segment says: the page is given back
          obtain ⟨s', hfree⟩ := @pallocFreePage_spec
            ⟨{ s.mm with used := kpage :: s.mm.used, pool }, s.phys, file⟩ kpage
            List.mem_cons_self
          rw [hfree]
          exact ⟨false, s', rfl, fun h => by cases h⟩

/-- `file_seek` within a file. -/
theorem fileSeek_nat (s : Loader) (pos : Nat) :
    s.fileSeek pos = .ok { s with file := { s.file with pos } } := by
  unfold fileSeek
  rw [if_neg (by omega)]
  rfl

theorem loadSegment_spec (tables : Nat → Bool) (writable : Bool) {n : Nat} {s : Loader}
    (hs : Good s) {ofs p readBytes zeroBytes : Nat} (hofs : ofs % PGSIZE = 0)
    (hsum : readBytes + zeroBytes = n * PGSIZE) (hp : p + n ≤ userPages) :
    ∃ b s', loadSegment tables s ofs (pageAddr p) readBytes zeroBytes writable = .ok (b, s') ∧
      (b = true → Good s' ∧ Extends s s' ∧
        (∀ q, p ≤ q → q < p + n → s'.mm.page q ≠ none) ∧
        ∀ k, k < n * PGSIZE → s'.userByte (pageAddr p + k) =
          if k < readBytes then s.file.bytes[ofs + k]? else some 0) := by
  have hgood : Good { s with file := { s.file with pos := ofs } } := ⟨hs.sound, hs.fresh⟩
  obtain ⟨b, s', hloop, hrun⟩ := loadPages_spec tables writable hgood hsum hp
  have htotal : readBytes + zeroBytes < 2 ^ 32 := by
    rw [hsum]
    unfold userPages PHYS_BASE PGSIZE at *
    omega
  have hofs' : (ofs : Int) % PGSIZE = 0 := by omega
  refine ⟨b, s', ?_, fun hb => ?_⟩
  · unfold loadSegment
    rw [addU_eq htotal, ok_bind, hsum, Nat.mul_mod_left, if_neg (by simp), pgOfs_pageAddr,
      if_neg (by simp), if_neg (not_not_intro hofs'), fileSeek_nat, ok_bind,
      Nat.mul_div_cancel n (by decide)]
    exact hloop
  · obtain ⟨hgood', hext, hpages, hbytes⟩ := hrun hb
    exact ⟨hgood', ⟨hext.file, hext.pages⟩, hpages, hbytes⟩

/-- What else `validate_segment` checks. -/
theorem validateSegment_offset {phdr : Phdr} {file : File}
    (h : validateSegment phdr file = true) :
    pgOfs phdr.p_offset = pgOfs phdr.p_vaddr ∧ phdr.p_offset ≤ file.length := by
  unfold validateSegment at h
  split_ifs at h with h₁ h₂
  exact ⟨not_not.mp h₁, Nat.not_lt.mp h₂⟩

/-- The pages of a valid segment, and what `load` computes for them. -/
structure SegmentShape (phdr : Phdr) (n : Nat) : Prop where
  memEnd : pgOfs phdr.p_vaddr + phdr.p_memsz ≤ n * PGSIZE
  last : n * PGSIZE < pgOfs phdr.p_vaddr + phdr.p_memsz + PGSIZE
  user : pgNo phdr.p_vaddr + n ≤ userPages
  round : roundUp (pgOfs phdr.p_vaddr + phdr.p_memsz) = .ok (n * PGSIZE)

theorem segmentShape {phdr : Phdr} (hend : phdr.p_vaddr + phdr.p_memsz < PHYS_BASE) :
    ∃ n, SegmentShape phdr n := by
  have hsum : pgOfs phdr.p_vaddr + phdr.p_memsz + (PGSIZE - 1) < 2 ^ 32 := by
    unfold pgOfs PHYS_BASE PGSIZE at *
    omega
  refine ⟨(pgOfs phdr.p_vaddr + phdr.p_memsz + (PGSIZE - 1)) / PGSIZE, ?_, ?_, ?_, ?_⟩
  · unfold pgOfs PGSIZE
    omega
  · unfold pgOfs PGSIZE
    omega
  · unfold pgNo pgOfs userPages PHYS_BASE PGSIZE at *
    omega
  · unfold roundUp
    rw [addU_eq hsum]
    rfl

/-- The bytes that `load_segment` puts in place are those the header asks for. The address and
the offset of the segment have the same place within their pages, so that the pages of the
file and those of memory correspond byte by byte. -/
theorem segmentLoaded {s s' : Loader} {phdr : Phdr} {n readBytes : Nat}
    (hvalid : validateSegment phdr s.file.toFile = true) (hshape : SegmentShape phdr n)
    (hread : readBytes = if 0 < phdr.p_filesz then pgOfs phdr.p_vaddr + phdr.p_filesz else 0)
    (hext : Extends s s')
    (hpages : ∀ q, pgNo phdr.p_vaddr ≤ q → q < pgNo phdr.p_vaddr + n → s'.mm.page q ≠ none)
    (hbytes : ∀ k, k < n * PGSIZE → s'.userByte (pageAddr (pgNo phdr.p_vaddr) + k) =
      if k < readBytes then s.file.bytes[pgRoundDown phdr.p_offset + k]? else some 0) :
    s'.SegmentLoaded phdr := by
  obtain ⟨hsize, hpos, hfirst, -⟩ := validateSegment_bounds hvalid
  obtain ⟨hofs, hoffset⟩ := validateSegment_offset hvalid
  have hmemEnd := hshape.memEnd
  have haddr : ∀ k, phdr.p_vaddr + k =
      pageAddr (pgNo phdr.p_vaddr) + (pgOfs phdr.p_vaddr + k) := fun k => by
    unfold pageAddr pgNo pgOfs PGSIZE
    omega
  have hpage : ∀ q, segmentPage phdr q → q < pgNo phdr.p_vaddr + n := fun q hq => by
    have hlast := hq.2
    unfold pgNo pgOfs PGSIZE at *
    omega
  have hfile : ∀ k, k < phdr.p_filesz →
      s'.userByte (phdr.p_vaddr + k) = s'.file.bytes[phdr.p_offset + k]? := fun k hk => by
    have hsource : pgRoundDown phdr.p_offset + (pgOfs phdr.p_vaddr + k) = phdr.p_offset + k := by
      rw [← hofs]
      unfold pgRoundDown pgOfs PGSIZE
      omega
    rw [haddr k, hbytes _ (by omega), if_pos (by rw [hread, if_pos (by omega)]; omega), hsource,
      hext.file]
  refine ⟨hsize, fun q hq => ⟨hpages q hq.1 (hpage q hq), ?_, ?_⟩, ?_, hfile, fun k h₁ h₂ => ?_⟩
  · have hle := hq.1
    unfold pageAddr pgNo PGSIZE at *
    omega
  · have hlt := hpage q hq
    have huser := hshape.user
    unfold pageAddr userPages PHYS_BASE PGSIZE at *
    omega
  · by_cases hzero : phdr.p_filesz = 0
    · rw [hzero]
      unfold File.length
      rw [hext.file]
      exact hoffset
    · -- the last byte was read, so it is in the file
      have hlast := hfile (phdr.p_filesz - 1) (by omega)
      have hmapped : s'.mm.page (pgNo (phdr.p_vaddr + (phdr.p_filesz - 1))) ≠ none := by
        refine hpages _ (pgNo_le (by omega)) ?_
        unfold pgNo pgOfs PGSIZE at *
        omega
      obtain ⟨e, he⟩ := Option.ne_none_iff_exists'.mp hmapped
      unfold userByte at hlast
      rw [he, Option.map_some] at hlast
      obtain ⟨hlt, -⟩ := List.getElem?_eq_some_iff.mp hlast.symm
      unfold File.length
      omega
  · rw [haddr k, hbytes _ (by omega), if_neg ?_]
    rw [hread]
    split <;> omega

/-- A `PT_LOAD` header is loaded or rejected, without a fault. What `validate_segment` lets
pass is a `SegmentShape`, for which none of the sums wraps. -/
theorem loadPhdr_spec (tables : Nat → Bool) {s : Loader} (hs : Good s) {phdr : Phdr}
    (hv : phdr.p_vaddr < 2 ^ 32) (hm : phdr.p_memsz < 2 ^ 32) :
    ∃ b s', loadPhdr tables s phdr = .ok (b, s') ∧
      (b = true → Good s' ∧ Extends s s' ∧ s'.SegmentLoaded phdr) := by
  unfold loadPhdr
  by_cases hvalid : validateSegment phdr s.file.toFile = true
  · rw [if_pos hvalid]
    obtain ⟨hsize, hpos, -, hend⟩ := validateSegment_bounds hvalid
    have hend := hend hv hm
    obtain ⟨n, hshape⟩ := segmentShape hend
    have hmemEnd := hshape.memEnd
    have hofs : pgRoundDown phdr.p_offset % PGSIZE = 0 := Nat.mul_mod_left _ _
    have hint : toInt32 (pgRoundDown phdr.p_offset) = (pgRoundDown phdr.p_offset : Nat) := by
      have hle := (validateSegment_offset hvalid).2
      have hlt := s.file.length_lt
      unfold toInt32
      rw [if_pos]
      unfold File.length at hle
      unfold pgRoundDown PGSIZE
      omega
    have hsum : pgOfs phdr.p_vaddr + phdr.p_memsz < 2 ^ 32 := by
      unfold pgOfs PHYS_BASE PGSIZE at *
      omega
    dsimp only
    rw [addU_eq hsum, ok_bind, hshape.round, ok_bind, hint, pgRoundDown_eq (a := phdr.p_vaddr)]
    by_cases hfile : 0 < phdr.p_filesz
    · rw [if_pos hfile, addU_eq (by omega), ok_bind, subU_eq (by omega), ok_bind]
      have htotal : pgOfs phdr.p_vaddr + phdr.p_filesz +
          (n * PGSIZE - (pgOfs phdr.p_vaddr + phdr.p_filesz)) = n * PGSIZE := by omega
      obtain ⟨b, s', hload, hrun⟩ :=
        loadSegment_spec tables phdr.writable hs hofs htotal hshape.user
      refine ⟨b, s', hload, fun hb => ?_⟩
      obtain ⟨hgood, hext, hpages, hbytes⟩ := hrun hb
      exact ⟨hgood, hext, segmentLoaded hvalid hshape (if_pos hfile).symm hext hpages hbytes⟩
    · rw [if_neg hfile]
      obtain ⟨b, s', hload, hrun⟩ :=
        loadSegment_spec tables phdr.writable hs hofs (Nat.zero_add (n * PGSIZE)) hshape.user
      refine ⟨b, s', hload, fun hb => ?_⟩
      obtain ⟨hgood, hext, hpages, hbytes⟩ := hrun hb
      exact ⟨hgood, hext, segmentLoaded hvalid hshape (if_neg hfile).symm hext hpages hbytes⟩
  · rw [if_neg hvalid]
    exact ⟨false, s, rfl, fun h => by cases h⟩

/-! ### The program headers -/

/-- The program header at offset `ofs` of a file. -/
def phdrAt (bytes : List UInt8) (ofs : Nat) : Phdr :=
  Phdr.ofBytes ((bytes.drop ofs).take sizeofPhdr)

/-- A full read of a header. -/
theorem buffer_eq {bytes buffer : List UInt8} {pos size : Nat}
    (h : ∀ k, buffer[k]? = if k < size then bytes[pos + k]? else none) :
    buffer = (bytes.drop pos).take size := by
  refine List.ext_getElem? fun k => ?_
  rw [h k, List.getElem?_take, List.getElem?_drop]

/-- A full read ends in the file. -/
theorem read_le {bytes buffer : List UInt8} {pos size : Nat} (hlen : buffer.length = size)
    (hsize : 0 < size) (h : ∀ k, buffer[k]? = if k < size then bytes[pos + k]? else none) :
    pos + size ≤ bytes.length := by
  have hlast := h (size - 1)
  rw [if_pos (by omega), List.getElem?_eq_getElem (by omega)] at hlast
  obtain ⟨hlt, -⟩ := List.getElem?_eq_some_iff.mp hlast.symm
  omega

/-- The loop over the program headers ends without a fault; if it succeeds, all
segments to load are loaded. -/
theorem loadPhdrs_spec (tables : Nat → Bool) {n : Nat} {s : Loader} (hs : Good s) (fileOfs : Int) :
    ∃ b s', loadPhdrs tables n s fileOfs = .ok (b, s') ∧
      (b = true → Good s' ∧ Extends s s' ∧ (0 < n → 0 ≤ fileOfs) ∧
        ∀ i, i < n → (phdrAt s.file.bytes (fileOfs.toNat + i * sizeofPhdr)).p_type = PT_LOAD →
          s'.SegmentLoaded (phdrAt s.file.bytes (fileOfs.toNat + i * sizeofPhdr))) := by
  induction n generalizing s fileOfs with
  | zero =>
      exact ⟨true, s, rfl, fun _ => ⟨hs, Extends.refl s, fun h => absurd h (Nat.lt_irrefl 0),
        fun i hi => absurd hi (Nat.not_lt_zero i)⟩⟩
  | succ n ih =>
      unfold loadPhdrs
      by_cases hrange : fileOfs < 0 ∨ s.file.length < fileOfs
      · rw [if_pos hrange]
        exact ⟨false, s, rfl, fun h => by cases h⟩
      · obtain ⟨ofs, rfl⟩ : ∃ ofs : Nat, fileOfs = ofs := ⟨fileOfs.toNat, by omega⟩
        rw [if_neg hrange, fileSeek_nat, ok_bind]
        obtain ⟨buffer, file, hread, hbytes, hfull⟩ :=
          fileRead_spec { s with file := { s.file with pos := ofs } } sizeofPhdr
        rw [hread]
        dsimp only at hbytes hfull ⊢
        by_cases hlen : buffer.length = sizeofPhdr
        · obtain ⟨-, hbuffer⟩ := hfull hlen
          have hle := read_le hlen (by decide) hbuffer
          have hphdr : Phdr.ofBytes buffer = phdrAt s.file.bytes ofs := by
            unfold phdrAt
            rw [← buffer_eq hbuffer]
          have hnext : nextPhdr ofs = .ok ((ofs + sizeofPhdr : Nat) : Int) := by
            have hlt := s.file.length_lt
            unfold nextPhdr
            rw [if_pos (by omega)]
            rfl
          rw [if_neg (not_not_intro hlen), hnext, ok_bind, hphdr]
          have hgood : Good { s with file } := ⟨hs.sound, hs.fresh⟩
          have hfile : Extends s { s with file } := ⟨hbytes, fun _ _ h => ⟨h, rfl⟩⟩
          -- the headers behind this one, once it is dealt with
          have hrest : ∀ s₁, Good s₁ → Extends s s₁ →
              ((phdrAt s.file.bytes ofs).p_type = PT_LOAD →
                s₁.SegmentLoaded (phdrAt s.file.bytes ofs)) →
              ∃ b s', loadPhdrs tables n s₁ ((ofs + sizeofPhdr : Nat) : Int) = .ok (b, s') ∧
                (b = true → Good s' ∧ Extends s s' ∧ (0 < n + 1 → 0 ≤ (ofs : Int)) ∧
                  ∀ i, i < n + 1 →
                    (phdrAt s.file.bytes ((ofs : Int).toNat + i * sizeofPhdr)).p_type = PT_LOAD →
                    s'.SegmentLoaded
                      (phdrAt s.file.bytes ((ofs : Int).toNat + i * sizeofPhdr))) := by
            intro s₁ hs₁ hext₁ hhead
            obtain ⟨b, s', hloop, hrun⟩ := ih hs₁ ((ofs + sizeofPhdr : Nat) : Int)
            refine ⟨b, s', hloop, fun hb => ?_⟩
            obtain ⟨hgood', hext', -, hall⟩ := hrun hb
            refine ⟨hgood', hext₁.trans hext', fun _ => Int.natCast_nonneg ofs, fun i hi => ?_⟩
            cases i with
            | zero =>
                rw [Nat.zero_mul, Nat.add_zero, Int.toNat_natCast]
                exact fun htype => (hhead htype).mono hext'
            | succ i =>
                have htail := hall i (by omega)
                rw [hext₁.file, Int.toNat_natCast] at htail
                rw [Int.toNat_natCast, show ofs + (i + 1) * sizeofPhdr =
                  ofs + sizeofPhdr + i * sizeofPhdr by rw [Nat.succ_mul]; omega]
                exact htail
          by_cases htype : (phdrAt s.file.bytes ofs).p_type = PT_DYNAMIC ∨
              (phdrAt s.file.bytes ofs).p_type = PT_INTERP ∨
              (phdrAt s.file.bytes ofs).p_type = PT_SHLIB
          · rw [if_pos htype]
            exact ⟨false, _, rfl, fun h => by cases h⟩
          · rw [if_neg htype]
            by_cases hload : (phdrAt s.file.bytes ofs).p_type = PT_LOAD
            · have hv : (phdrAt s.file.bytes ofs).p_vaddr < 2 ^ 32 := word_lt _ _
              have hm : (phdrAt s.file.bytes ofs).p_memsz < 2 ^ 32 := word_lt _ _
              obtain ⟨b, s₁, hphdr', hrun⟩ := loadPhdr_spec tables hgood hv hm
              rw [if_pos hload, hphdr', ok_bind]
              cases b with
              | false => exact ⟨false, s₁, rfl, fun h => by cases h⟩
              | true =>
                  obtain ⟨hgood₁, hext₁, hsegment⟩ := hrun rfl
                  exact hrest s₁ hgood₁ (hfile.trans hext₁) fun _ => hsegment
            · rw [if_neg hload]
              exact hrest _ hgood hfile fun h => absurd h hload
        · rw [if_pos hlen]
          exact ⟨false, _, rfl, fun h => by cases h⟩

/-- `setup_stack` adds one page, or fails. -/
theorem setupStack_spec (tables : Nat → Bool) {s : Loader} (hs : Good s) :
    ∃ b s', setupStack tables s = .ok (b, s') ∧ (b = true → Extends s s') := by
  unfold setupStack
  obtain hnone | ⟨kpage, pool, hpool, hget⟩ := pallocGetPage_cases s
  · rw [hnone]
    exact ⟨false, s, rfl, fun h => by cases h⟩
  · have hpage : PHYS_BASE - PGSIZE = pageAddr stackPage := by decide
    obtain ⟨b, s₁, hinst, hused, -, hok⟩ := installPage_spec hs hpool
      (show stackPage < userPages by decide) s.file rfl [] true (tables stackPage)
    rw [hget]
    unfold fillPage
    dsimp only
    rw [subU_eq (by decide), ok_bind, hpage, pgNo_pageAddr, hinst, ok_bind]
    cases b with
    | false =>
        obtain ⟨s', hfree⟩ := pallocFreePage_spec hused
        dsimp only
        rw [if_neg (by decide), hfree]
        exact ⟨false, s', rfl, fun h => by cases h⟩
    | true => exact ⟨true, s₁, rfl, fun _ => (hok rfl).2.1⟩

/-- What a call of `load` on a file gives: nothing, or an address space in which
every segment that the headers ask for is loaded. -/
def Outcome (file : Option OpenFile) (r : Option (Loader × Nat × Nat)) : Prop :=
  ∀ s eip esp, r = some (s, eip, esp) → ∃ f, file = some f ∧ s.file.bytes = f.bytes ∧
    ∀ i, i < (ehdrOf f).e_phnum →
      (phdrAt f.bytes ((ehdrOf f).e_phoff + i * sizeofPhdr)).p_type = PT_LOAD →
      s.SegmentLoaded (phdrAt f.bytes ((ehdrOf f).e_phoff + i * sizeofPhdr))

theorem Outcome.none (file : Option OpenFile) : Outcome file none := by
  intro s eip esp h
  cases h

/-- Before the first header, nothing is mapped. -/
theorem start_good (pool : FreePages) (phys : Nat → Nat → UInt8) (file : OpenFile) :
    Good ⟨⟨fun _ => .none, [], pool.frames⟩, phys, file⟩ := by
  have hempty : ∀ p, (⟨fun _ => .none, [], pool.frames⟩ : Mm).page p = .none := fun _ => rfl
  refine ⟨⟨fun p hp => absurd (hempty p) hp, List.nodup_nil, fun p e hp => ?_,
    fun p q e f hp => ?_⟩, ⟨pool.nodup, fun f _ => List.not_mem_nil⟩⟩
  · rw [hempty] at hp
    cases hp
  · rw [hempty] at hp
    cases hp

/-- **`load` is safe on every file.** Whatever the bytes of the executable, and
whatever the allocators do, `load` ends without a failed assertion and without a
wrap in its arithmetic, and if it succeeds, every segment is in memory as its
header says. -/
theorem load_safe (pagedir : Bool) (pool : FreePages) (tables : Nat → Bool)
    (phys : Nat → Nat → UInt8) (file : Option OpenFile) :
    ∃ r, load pagedir pool tables phys file = .ok r ∧ Outcome file r := by
  unfold load
  cases pagedir with
  | false => exact ⟨.none, rfl, Outcome.none _⟩
  | true =>
      rw [if_neg (by decide)]
      cases file with
      | none => exact ⟨.none, rfl, Outcome.none _⟩
      | some f =>
          dsimp only
          obtain ⟨buffer, file, hread, hbytes, hfull⟩ := fileRead_spec
            ⟨⟨fun _ => .none, [], pool.frames⟩, phys, { f with pos := 0 }⟩ sizeofEhdr
          rw [hread]
          dsimp only at hbytes hfull ⊢
          by_cases hok : ehdrOk buffer = true
          · have hlen : buffer.length = sizeofEhdr := by
              unfold ehdrOk at hok
              exact (of_decide_eq_true hok).1
            have hehdr : Ehdr.ofBytes buffer = ehdrOf f := by
              unfold ehdrOf
              rw [buffer_eq (hfull hlen).2]
              rfl
            rw [if_neg (not_not_intro hok), hehdr]
            obtain ⟨b, s, hphdrs, hrun⟩ := loadPhdrs_spec tables (n := (ehdrOf f).e_phnum)
              (start_good pool phys file) (toInt32 (ehdrOf f).e_phoff)
            rw [hphdrs, ok_bind]
            cases b with
            | false => exact ⟨.none, rfl, Outcome.none _⟩
            | true =>
                obtain ⟨hgood, hext, hofs, hall⟩ := hrun rfl
                obtain ⟨b, s', hstack, hrun'⟩ := setupStack_spec tables hgood
                dsimp only
                rw [if_neg (by decide), hstack, ok_bind]
                cases b with
                | false => exact ⟨.none, rfl, Outcome.none _⟩
                | true =>
                    refine ⟨_, rfl, fun s₁ eip esp h => ⟨f, rfl, ?_, fun i hi htype => ?_⟩⟩
                    · cases h
                      rw [(hrun' rfl).file, hext.file]
                      exact hbytes
                    · cases h
                      have hphoff : (toInt32 (ehdrOf f).e_phoff).toNat = (ehdrOf f).e_phoff := by
                        have hpos := hofs (by omega)
                        have hlt : (ehdrOf f).e_phoff < 2 ^ 32 := word_lt _ _
                        unfold toInt32 at hpos ⊢
                        split at hpos <;> omega
                      have hsegment := hall i hi
                      dsimp only at hsegment
                      rw [hphoff, hbytes] at hsegment
                      exact (hsegment htype).mono (hrun' rfl)
          · rw [if_pos hok]
            exact ⟨.none, rfl, Outcome.none _⟩

/-- A program of one segment is loaded. -/
example : (load true ⟨[1, 2], by decide⟩ (fun _ => true) (fun _ _ => 0)
    (some ⟨program 0x08048000, []⟩)).toOption.join.isSome = true := by decide +kernel

end Loader

end OsTools.Userprog

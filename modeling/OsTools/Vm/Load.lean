import OsTools.Lib.Except
import OsTools.Vm.Palloc
/-!
# OsTools.Vm.Load

The ELF loader of `userprog/process.c`: from the bytes of an executable to the
address space of its process and the start of its heap.

The environment decides what the pools hand out: `pool` lists the frames,
`tables` says for which page numbers a page table can be created. Where `load`
fails the process exits, so no state is returned.

## Proof shape

`load` is followed once, from the bytes to the image. Each loop has a lemma about one round
(`loadPages_succ`, `loadPhdrs_succ`), and what a page adds is `Mm.Maps`. `segment_pages`
splits a segment into pages: the arithmetic of `p_vaddr`, `p_filesz` and `p_memsz` is done
there and nowhere else. The modules about the start of the heap and about the file reuse the
lemmas about one round with other invariants.
-/

namespace OsTools.Vm

/-! ### Files -/

/-- An open file: its bytes, fewer than `off_t` can count, and the position. -/
structure File where
  bytes : List UInt8
  pos : Nat
  length_lt : bytes.length < 2 ^ 31

namespace File

def length (f : File) : Nat := f.bytes.length

def seek (f : File) (pos : Nat) : File := { f with pos }

/-- The bytes read, at most `size`, and the file behind them. -/
def read (f : File) (size : Nat) : List UInt8 × File :=
  let buffer := (f.bytes.drop f.pos).take size
  (buffer, { f with pos := f.pos + buffer.length })

end File

/-! ### ELF headers -/

def byteAt (buffer : List UInt8) (i : Nat) : Nat := (buffer.getD i 0).toNat

def half (buffer : List UInt8) (i : Nat) : Nat := byteAt buffer i + 256 * byteAt buffer (i + 1)

def word (buffer : List UInt8) (i : Nat) : Nat := half buffer i + 65536 * half buffer (i + 2)

/-- The fields of `Elf32_Ehdr` that `load` reads. -/
structure Ehdr where
  e_ident : List UInt8
  e_type : Nat
  e_machine : Nat
  e_version : Nat
  e_entry : Nat
  e_phoff : Nat
  e_phentsize : Nat
  e_phnum : Nat

def sizeofEhdr : Nat := 52

def Ehdr.ofBytes (b : List UInt8) : Ehdr :=
  ⟨b.take 16, half b 16, half b 18, word b 20, word b 24, word b 28, half b 42, half b 44⟩

/-- The fields of `Elf32_Phdr` that `load` reads. -/
structure Phdr where
  p_type : Nat
  p_offset : Nat
  p_vaddr : Nat
  p_filesz : Nat
  p_memsz : Nat
  p_flags : Nat

def sizeofPhdr : Nat := 32

def Phdr.ofBytes (b : List UInt8) : Phdr :=
  ⟨word b 0, word b 4, word b 8, word b 16, word b 20, word b 24⟩

def PT_LOAD : Nat := 1
def PT_DYNAMIC : Nat := 2
def PT_INTERP : Nat := 3
def PT_SHLIB : Nat := 5

/-- `"\177ELF\1\1\1"` -/
def elfMagic : List UInt8 := [0x7f, 0x45, 0x4c, 0x46, 1, 1, 1]

/-- `p_flags & PF_W`. -/
def Phdr.writable (phdr : Phdr) : Bool := decide (phdr.p_flags / 2 % 2 = 1)

/-- `validate_segment`. -/
def validateSegment (phdr : Phdr) (file : File) : Bool :=
  -- p_offset and p_vaddr must have the same page offset
  if pgOfs phdr.p_offset ≠ pgOfs phdr.p_vaddr then false
  -- p_offset must point within the file
  else if file.length < phdr.p_offset then false
  else if phdr.p_memsz < phdr.p_filesz then false
  else if phdr.p_memsz = 0 then false
  -- the region must start and end within the user address space
  else if ¬ isUserVaddr phdr.p_vaddr then false
  else if ¬ isUserVaddr (add32 phdr.p_vaddr phdr.p_memsz) then false
  -- and must not wrap around
  else if add32 phdr.p_vaddr phdr.p_memsz < phdr.p_vaddr then false
  -- page 0 is not mapped
  else if phdr.p_vaddr < PGSIZE then false
  else true

/-! ### Loading -/

/-- A process: its memory, the fields of `struct thread` that make up the heap,
and what the last system call left in `eax`. -/
structure Process where
  mm : Mm
  startOfHeap : Nat
  segmentBreak : Nat
  previousBreak : Nat
  eax : Nat

/-- `install_page`. -/
def Mm.installPage (m : Mm) (upage kpage : Nat) (writable avail : Bool) :
    Except Panic (Bool × Mm) := do
  let old ← m.pagedir.getPage upage
  if old.isSome then .ok (false, m)
  else
    let (success, pagedir) ← m.pagedir.setPage upage kpage writable avail
    .ok (success, { m with pagedir })

/-- The loop of `load_segment`, which runs once for each of the
`(readBytes + zeroBytes) / PGSIZE` pages. -/
def loadPages (tables : Nat → Bool) (writable : Bool) :
    Nat → Mm → File → Nat → Nat → Nat → Except Panic (Option Mm)
  | 0, m, _, _, _, _ => .ok (some m)
  | n + 1, m, file, upage, readBytes, zeroBytes =>
      if readBytes = 0 ∧ zeroBytes = 0 then .ok (some m)
      else
        let pageReadBytes := if readBytes < PGSIZE then readBytes else PGSIZE
        let pageZeroBytes := PGSIZE - pageReadBytes
        match m.pallocGetPage with
        | none => .ok none
        | some (kpage, m) =>
            let (buffer, file) := file.read pageReadBytes
            if buffer.length ≠ pageReadBytes then .ok none
            else do
              let (success, m) ← m.installPage upage kpage writable (tables (pgNo upage))
              if success then
                loadPages tables writable n m file (add32 upage PGSIZE) (readBytes - pageReadBytes)
                  (sub32 zeroBytes pageZeroBytes)
              else .ok none

/-- `load_segment`. -/
def loadSegment (tables : Nat → Bool) (m : Mm) (file : File)
    (ofs upage readBytes zeroBytes : Nat) (writable : Bool) : Except Panic (Option Mm) :=
  if add32 readBytes zeroBytes % PGSIZE ≠ 0 then .error .unaligned
  else if pgOfs upage ≠ 0 then .error .unaligned
  else if ofs % PGSIZE ≠ 0 then .error .unaligned
  else
    loadPages tables writable (add32 readBytes zeroBytes / PGSIZE) m (file.seek ofs) upage readBytes
      zeroBytes

/-- `ROUND_UP (n, PGSIZE)`. -/
def roundUp (n : Nat) : Nat := add32 n (PGSIZE - 1 : Nat) / PGSIZE * PGSIZE

/-- The case `PT_LOAD`. -/
def loadPhdr (tables : Nat → Bool) (t : Process) (file : File) (phdr : Phdr) :
    Except Panic (Option Process) :=
  if validateSegment phdr file then do
    let filePage := pgRoundDown phdr.p_offset
    let memPage := pgRoundDown phdr.p_vaddr
    let pageOffset := pgOfs phdr.p_vaddr
    let readBytes := if 0 < phdr.p_filesz then add32 pageOffset phdr.p_filesz else 0
    let zeroBytes :=
      if 0 < phdr.p_filesz then sub32 (roundUp (add32 pageOffset phdr.p_memsz)) readBytes
      else roundUp (add32 pageOffset phdr.p_memsz)
    match ← loadSegment tables t.mm file filePage memPage readBytes zeroBytes phdr.writable with
    | none => .ok none
    | some mm =>
        let startOfHeap := add32 (add32 (pgRoundUp memPage) readBytes) zeroBytes
        .ok (some { t with
          mm, startOfHeap, segmentBreak := startOfHeap, previousBreak := startOfHeap })
  else .ok none

/-- The loop over the program headers. -/
def loadPhdrs (tables : Nat → Bool) : Nat → Process → File → Int → Except Panic (Option Process)
  | 0, t, _, _ => .ok (some t)
  | n + 1, t, file, fileOfs =>
      if fileOfs < 0 ∨ file.length < fileOfs then .ok none
      else
        let (buffer, file) := (file.seek fileOfs.toNat).read sizeofPhdr
        if buffer.length ≠ sizeofPhdr then .ok none
        else
          let phdr := Phdr.ofBytes buffer
          let fileOfs := fileOfs + sizeofPhdr
          if phdr.p_type = PT_DYNAMIC ∨ phdr.p_type = PT_INTERP ∨ phdr.p_type = PT_SHLIB then
            .ok none
          else if phdr.p_type = PT_LOAD then do
            match ← loadPhdr tables t file phdr with
            | none => .ok none
            | some t => loadPhdrs tables n t file fileOfs
          else loadPhdrs tables n t file fileOfs

/-- The page below `PHYS_BASE`. -/
def stackPage : Nat := userPages - 1

/-- `setup_stack`: the stack pointer and the memory. -/
def setupStack (tables : Nat → Bool) (m : Mm) : Except Panic (Option (Nat × Mm)) :=
  match m.pallocGetPage with
  | none => .ok none
  | some (kpage, m) => do
      let (success, m) ← m.installPage (pageAddr stackPage) kpage true (tables stackPage)
      if success then .ok (some (PHYS_BASE - 20, m)) else .ok none

/-- A loaded process with its entry point and its stack pointer. -/
structure Loaded where
  process : Process
  eip : Nat
  esp : Nat

/-- `load`. `pagedir` says whether `pagedir_create` succeeds; `file` is what
`filesys_open` returns. -/
def load (pagedir : Bool) (pool : List Nat) (tables : Nat → Bool) (file : Option File) :
    Except Panic (Option Loaded) :=
  if ¬ pagedir then .ok none
  else
    match file with
    | none => .ok none
    | some file =>
        let (buffer, file) := file.read sizeofEhdr
        let ehdr := Ehdr.ofBytes buffer
        if buffer.length ≠ sizeofEhdr ∨ ehdr.e_ident.take 7 ≠ elfMagic ∨ ehdr.e_type ≠ 2 ∨
            ehdr.e_machine ≠ 3 ∨ ehdr.e_version ≠ 1 ∨ ehdr.e_phentsize ≠ sizeofPhdr ∨
            1024 < ehdr.e_phnum then .ok none
        else do
          let t : Process := ⟨⟨fun _ => none, [], pool⟩, 0, 0, 0, 0⟩
          match ← loadPhdrs tables ehdr.e_phnum t file (toInt32 ehdr.e_phoff) with
          | none => .ok none
          | some t =>
              match ← setupStack tables t.mm with
              | none => .ok none
              | some (esp, mm) => .ok (some ⟨{ t with mm }, ehdr.e_entry, esp⟩)

/-! ### Loaded processes -/

/-- What `load` guarantees: the heap is empty and starts at a page boundary
below the end of the user address space. -/
structure Process.Image (p : Process) : Prop where
  sound : p.mm.Sound
  noLeak : p.mm.NoLeak
  aligned : pgOfs p.startOfHeap = 0
  start_lt : p.startOfHeap < PHYS_BASE
  empty : p.segmentBreak = p.startOfHeap

variable {m m' : Mm} {t t' : Process} {tables : Nat → Bool} {p q kpage n : Nat}

/-- One page installed. -/
theorem installPage_eq_ok (hm : m.Sound) (hf : m.Fresh) (hp : p < userPages) {pool : List Nat}
    (hpool : m.pool = kpage :: pool) {writable avail : Bool}
    (h : Mm.installPage { m with used := kpage :: m.used, pool } (pageAddr p) kpage writable avail =
      .ok (true, m')) :
    m'.Sound ∧ m'.Fresh ∧ (m.NoLeak → m'.NoLeak) ∧ m'.page p ≠ none ∧
      ∀ q, m.page q ≠ none → m'.page q ≠ none := by
  unfold Mm.installPage at h
  rw [PageDir.getPage_page hp, ok_bind] at h
  cases hpage : m.pagedir.page p with
  | some e => simp [hpage] at h
  | none =>
      obtain ⟨b, pd', hset, -, hsound, hfresh, hpd, -⟩ :=
        hm.setPage_page hf hpool hp hpage writable avail
      simp only [hpage, Option.map_none, Option.isSome_none, Bool.false_eq_true, if_false, hset,
        ok_bind] at h
      obtain ⟨rfl, rfl⟩ := Prod.mk.inj (Except.ok.inj h)
      rw [if_pos rfl] at hpd
      refine ⟨hsound, hfresh, fun hleak => hleak.cons hpage hpd rfl, ?_, fun q hq => ?_⟩
      · show pd'.page p ≠ none
        rw [hpd, Function.update_self]
        simp
      · show pd'.page q ≠ none
        rw [hpd]
        by_cases hqp : q = p
        · rw [hqp, Function.update_self]
          simp
        · rwa [Function.update_of_ne hqp]

/-- A page is installed where none was. -/
theorem installPage_unmapped {used pool : List Nat} {writable avail : Bool} (hp : p < userPages)
    (h : Mm.installPage ⟨m.pagedir, used, pool⟩ (pageAddr p) kpage writable avail =
      .ok (true, m')) : m.page p = none := by
  unfold Mm.installPage at h
  rw [PageDir.getPage_page hp, ok_bind] at h
  cases hpage : m.pagedir.page p with
  | some e => simp [hpage] at h
  | none => exact hpage

theorem pallocGetPage_eq_some {r : Nat × Mm} (h : m.pallocGetPage = some r) :
    ∃ pool, m.pool = r.1 :: pool ∧ r.2 = { m with used := r.1 :: m.used, pool } := by
  unfold Mm.pallocGetPage at h
  split at h
  · exact absurd h (by simp)
  · rename_i kpage pool hpool
    obtain rfl := Option.some.inj h
    exact ⟨pool, hpool, rfl⟩

theorem pageAddr_succ (hp : p < userPages) : add32 (pageAddr p) (PGSIZE : Nat) = pageAddr (p + 1) := by
  unfold add32 pageAddr userPages PHYS_BASE PGSIZE at *
  omega

/-- A page of the pool has been mapped at `p`. -/
def Mm.Maps (m m' : Mm) (p : Nat) : Prop :=
  ∃ kpage pool writable avail, m.pool = kpage :: pool ∧
    Mm.installPage { m with used := kpage :: m.used, pool } (pageAddr p) kpage writable avail =
      .ok (true, m')

/-- One round of the loop: the page at `p` is mapped, and the loop goes on behind it. -/
theorem loadPages_succ {writable : Bool} {file : File} {readBytes zeroBytes : Nat}
    (hp : p < userPages) (hpos : ¬ (readBytes = 0 ∧ zeroBytes = 0))
    (h : loadPages tables writable (n + 1) m file (pageAddr p) readBytes zeroBytes = .ok (some m')) :
    ∃ m₁ file', m.Maps m₁ p ∧
      loadPages tables writable n m₁ file' (pageAddr (p + 1))
        (readBytes - if readBytes < PGSIZE then readBytes else PGSIZE)
        (sub32 zeroBytes (PGSIZE - if readBytes < PGSIZE then readBytes else PGSIZE)) =
          .ok (some m') := by
  unfold loadPages at h
  rw [if_neg hpos] at h
  dsimp only at h
  generalize (if readBytes < PGSIZE then readBytes else PGSIZE) = pageReadBytes at h ⊢
  cases hget : m.pallocGetPage with
  | none => simp [hget] at h
  | some r =>
      obtain ⟨pool, hpool, hr⟩ := pallocGetPage_eq_some hget
      simp only [hget, hr] at h
      split at h
      · exact absurd h (by simp)
      · obtain ⟨⟨success, m₁⟩, hinst, h⟩ := bind_eq_ok h
        dsimp only at h
        cases success with
        | false => exact absurd h (by simp)
        | true =>
            rw [if_pos rfl, pageAddr_succ hp] at h
            exact ⟨m₁, _, ⟨_, pool, _, _, hpool, hinst⟩, h⟩

/-- A successful loop has mapped all its pages. -/
theorem loadPages_eq_ok {writable : Bool} {file : File} {readBytes zeroBytes : Nat} (hm : m.Sound)
    (hf : m.Fresh) (hsum : readBytes + zeroBytes = n * PGSIZE) (hp : p + n ≤ userPages)
    (h : loadPages tables writable n m file (pageAddr p) readBytes zeroBytes = .ok (some m')) :
    m'.Sound ∧ m'.Fresh ∧ (m.NoLeak → m'.NoLeak) ∧
      (∀ q, p ≤ q → q < p + n → m'.page q ≠ none) ∧ ∀ q, m.page q ≠ none → m'.page q ≠ none := by
  induction n generalizing m file p readBytes zeroBytes with
  | zero =>
      obtain rfl := Option.some.inj (Except.ok.inj h)
      exact ⟨hm, hf, id, fun q h₁ h₂ => by omega, fun q hq => hq⟩
  | succ n ih =>
      have hpos : ¬ (readBytes = 0 ∧ zeroBytes = 0) := by
        rintro ⟨rfl, rfl⟩
        unfold PGSIZE at hsum
        omega
      have hpu : p < userPages := by omega
      obtain ⟨m₁, file', ⟨kpage, pool, _, _, hpool, hinst⟩, hload⟩ := loadPages_succ hpu hpos h
      have hrest : readBytes - (if readBytes < PGSIZE then readBytes else PGSIZE) +
          sub32 zeroBytes (PGSIZE - if readBytes < PGSIZE then readBytes else PGSIZE) =
            n * PGSIZE := by
        have hbound : zeroBytes < 2 ^ 32 := by
          unfold userPages PHYS_BASE PGSIZE at *
          omega
        generalize hread : (if readBytes < PGSIZE then readBytes else PGSIZE) = pageReadBytes
        have hle : PGSIZE - pageReadBytes ≤ zeroBytes := by
          unfold PGSIZE at *
          split at hread <;> omega
        rw [sub32_eq hle hbound]
        unfold PGSIZE at *
        split at hread <;> omega
      obtain ⟨hm₁, hf₁, hleak₁, hnew, hold⟩ := installPage_eq_ok hm hf hpu hpool hinst
      obtain ⟨hm', hf', hleak, hpages, hmono⟩ := ih hm₁ hf₁ hrest (by omega) hload
      refine ⟨hm', hf', fun hl => hleak (hleak₁ hl), fun q h₁ h₂ => ?_,
        fun q hq => hmono q (hold q hq)⟩
      rcases Nat.eq_or_lt_of_le h₁ with rfl | h₁
      · exact hmono p hnew
      · exact hpages q (by omega) (by omega)

/-- What holds while the program headers are loaded: the heap starts behind the
last page of a loaded segment, if there is one. -/
structure Process.Loading (t : Process) : Prop where
  sound : t.mm.Sound
  fresh : t.mm.Fresh
  noLeak : t.mm.NoLeak
  aligned : pgOfs t.startOfHeap = 0
  start_le : t.startOfHeap ≤ PHYS_BASE
  last : t.startOfHeap ≠ 0 → t.mm.page (pgNo t.startOfHeap - 1) ≠ none
  empty : t.segmentBreak = t.startOfHeap

/-- Where a valid segment lies. -/
theorem validateSegment_bounds {phdr : Phdr} {file : File} (h : validateSegment phdr file = true) :
    phdr.p_filesz ≤ phdr.p_memsz ∧ 0 < phdr.p_memsz ∧ PGSIZE ≤ phdr.p_vaddr ∧
      (phdr.p_vaddr < 2 ^ 32 → phdr.p_memsz < 2 ^ 32 → phdr.p_vaddr + phdr.p_memsz < PHYS_BASE) := by
  unfold validateSegment at h
  split_ifs at h with h₁ h₂ h₃ h₄ h₅ h₆ h₇ h₈
  refine ⟨by omega, by omega, by omega, fun hv hs => ?_⟩
  have hend : add32 phdr.p_vaddr phdr.p_memsz < PHYS_BASE := by
    simpa [isUserVaddr] using h₆
  have hstart : phdr.p_vaddr < PHYS_BASE := by
    simpa [isUserVaddr] using h₅
  unfold add32 PHYS_BASE at *
  omega

theorem word_lt (b : List UInt8) (i : Nat) : word b i < 2 ^ 32 := by
  have hbyte : ∀ j, byteAt b j < 256 := fun j => (b.getD j 0).toNat_lt
  have h₀ := hbyte i
  have h₁ := hbyte (i + 1)
  have h₂ := hbyte (i + 2)
  have h₃ := hbyte (i + 3)
  unfold word half
  rw [show i + 2 + 1 = i + 3 from rfl]
  omega

/-- The page behind the segment. -/
def Phdr.endPage (phdr : Phdr) : Nat := (phdr.p_vaddr + phdr.p_memsz + (PGSIZE - 1)) / PGSIZE

/-- How the segment at `vaddr` is split into pages: `n` of them, from the page of
`vaddr` on, the last one being a user page. -/
theorem segment_pages {vaddr filesz memsz readBytes zeroBytes : Nat} (hfile : filesz ≤ memsz)
    (hpos : 0 < memsz) (hend : vaddr + memsz < PHYS_BASE)
    (hread : readBytes = if 0 < filesz then add32 (pgOfs vaddr) filesz else 0)
    (hzero : zeroBytes =
      if 0 < filesz then sub32 (roundUp (add32 (pgOfs vaddr) memsz)) readBytes
      else roundUp (add32 (pgOfs vaddr) memsz)) :
    ∃ n, 0 < n ∧ readBytes + zeroBytes = n * PGSIZE ∧ pgNo vaddr + n ≤ userPages ∧
      pgNo vaddr + n = (vaddr + memsz + (PGSIZE - 1)) / PGSIZE := by
  refine ⟨(pgOfs vaddr + memsz + 4095) / 4096, ?_, ?_, ?_, ?_⟩
  · unfold pgOfs PGSIZE
    omega
  · have hmem : roundUp (add32 (pgOfs vaddr) memsz) =
        (pgOfs vaddr + memsz + 4095) / 4096 * 4096 := by
      unfold roundUp add32 pgOfs PGSIZE PHYS_BASE at *
      omega
    have hsum : add32 (pgOfs vaddr) filesz = pgOfs vaddr + filesz := by
      unfold add32 pgOfs PGSIZE PHYS_BASE at *
      omega
    rw [hmem] at hzero
    rw [hsum] at hread
    split at hread
    · rename_i hf
      rw [if_pos hf, sub32_eq] at hzero
      all_goals unfold pgOfs PGSIZE PHYS_BASE at *
      all_goals omega
    · rename_i hf
      rw [if_neg hf] at hzero
      unfold PGSIZE
      omega
  · unfold pgNo pgOfs userPages PGSIZE PHYS_BASE at *
    omega
  · unfold pgNo pgOfs PGSIZE
    omega

/-- A loaded segment: its pages were mapped, and the heap starts behind them. The header was
valid, so that the sums of the code are those of numbers. -/
theorem loadPhdr_run {file : File} {phdr : Phdr} (hv : phdr.p_vaddr < 2 ^ 32)
    (hs : phdr.p_memsz < 2 ^ 32) (h : loadPhdr tables t file phdr = .ok (some t')) :
    ∃ n file' readBytes zeroBytes mm, 0 < n ∧ pgNo phdr.p_vaddr + n ≤ userPages ∧
      pgNo phdr.p_vaddr + n = phdr.endPage ∧ PGSIZE ≤ phdr.p_vaddr ∧
      readBytes + zeroBytes = n * PGSIZE ∧
      loadPages tables phdr.writable n t.mm file' (pageAddr (pgNo phdr.p_vaddr)) readBytes zeroBytes =
        .ok (some mm) ∧
      t' = { t with
        mm, startOfHeap := pageAddr (pgNo phdr.p_vaddr + n),
        segmentBreak := pageAddr (pgNo phdr.p_vaddr + n),
        previousBreak := pageAddr (pgNo phdr.p_vaddr + n) } := by
  unfold loadPhdr at h
  split at h
  · rename_i hvalid
    obtain ⟨hfile, hpos, hlow, hend⟩ := validateSegment_bounds hvalid
    dsimp only at h
    set readBytes := if 0 < phdr.p_filesz then add32 (pgOfs phdr.p_vaddr) phdr.p_filesz else 0
      with hread
    set zeroBytes := if 0 < phdr.p_filesz then
        sub32 (roundUp (add32 (pgOfs phdr.p_vaddr) phdr.p_memsz)) readBytes
      else roundUp (add32 (pgOfs phdr.p_vaddr) phdr.p_memsz) with hzero
    obtain ⟨n, hn, hsum, hpages, hendPage⟩ := segment_pages hfile hpos (hend hv hs) hread hzero
    clear_value zeroBytes readBytes
    obtain ⟨r, hload, h⟩ := bind_eq_ok h
    cases r with
    | none => exact absurd h (by simp)
    | some mm =>
        obtain rfl := Option.some.inj (Except.ok.inj h)
        -- the segment ends in the user address space, so the sums are exact
        have hbound : pageAddr (pgNo phdr.p_vaddr) + readBytes + zeroBytes =
            pageAddr (pgNo phdr.p_vaddr + n) := by
          unfold pageAddr
          rw [Nat.add_mul, ← hsum, Nat.add_assoc]
        have hphys : pageAddr (pgNo phdr.p_vaddr + n) ≤ PHYS_BASE := by
          unfold pageAddr userPages PHYS_BASE PGSIZE at *
          omega
        have hlt : PHYS_BASE < 2 ^ 32 := by decide
        have htotal : add32 readBytes zeroBytes = n * PGSIZE := by
          rw [add32_nat (by omega), hsum]
        unfold loadSegment at hload
        rw [htotal, Nat.mul_mod_left, if_neg (by simp), pgRoundDown_eq, pgRoundDown_eq, pgOfs_pageAddr,
          if_neg (by simp), show n * PGSIZE / PGSIZE = n from Nat.mul_div_cancel n (by decide)] at hload
        split at hload
        · exact absurd hload (by simp)
        · -- the heap starts at page `pgNo p_vaddr + n`
          have hstart : add32 (add32 (pgRoundUp (pgRoundDown phdr.p_vaddr)) readBytes) zeroBytes =
              pageAddr (pgNo phdr.p_vaddr + n) := by
            have hup : pgRoundUp (pgRoundDown phdr.p_vaddr) = pageAddr (pgNo phdr.p_vaddr) := by
              rw [pgRoundDown_eq, pgRoundUp_pageAddr (by omega)]
            have hin : add32 (pageAddr (pgNo phdr.p_vaddr)) readBytes =
                pageAddr (pgNo phdr.p_vaddr) + readBytes := add32_nat (by omega)
            rw [hup, hin, add32_nat (by omega), hbound]
          refine ⟨n, _, readBytes, zeroBytes, mm, hn, hpages, hendPage, hlow, hsum, hload, ?_⟩
          rw [hstart]
  · exact absurd h (by simp)

/-- A loaded segment. -/
theorem loadPhdr_eq_ok {file : File} {phdr : Phdr} (ht : t.Loading)
    (hv : phdr.p_vaddr < 2 ^ 32) (hs : phdr.p_memsz < 2 ^ 32)
    (h : loadPhdr tables t file phdr = .ok (some t')) : t'.Loading := by
  obtain ⟨n, file', readBytes, zeroBytes, mm, hn, hpages, -, -, hsum, hload, rfl⟩ :=
    loadPhdr_run hv hs h
  obtain ⟨hm, hf, hleak, hmapped, -⟩ := loadPages_eq_ok ht.sound ht.fresh hsum hpages hload
  refine ⟨hm, hf, hleak ht.noLeak, pgOfs_pageAddr, ?_, fun _ => ?_, rfl⟩
  · dsimp only
    unfold pageAddr userPages PHYS_BASE PGSIZE at *
    omega
  · dsimp only
    rw [pgNo_pageAddr]
    exact hmapped _ (by omega) (by omega)

/-- One round of the loop over the headers: the segment is loaded, if its header says so. -/
theorem loadPhdrs_succ {file : File} {fileOfs : Int}
    (h : loadPhdrs tables (n + 1) t file fileOfs = .ok (some t')) :
    let read := (file.seek fileOfs.toNat).read sizeofPhdr
    ∃ t₁, (if (Phdr.ofBytes read.1).p_type = PT_LOAD then
        loadPhdr tables t read.2 (Phdr.ofBytes read.1) = .ok (some t₁) else t₁ = t) ∧
      loadPhdrs tables n t₁ read.2 (fileOfs + sizeofPhdr) = .ok (some t') := by
  unfold loadPhdrs at h
  split at h
  · exact absurd h (by simp)
  · dsimp only at h ⊢
    split at h
    · exact absurd h (by simp)
    · split at h
      · exact absurd h (by simp)
      · split at h
        · rename_i hload
          obtain ⟨r, hphdr, h⟩ := bind_eq_ok h
          cases r with
          | none => exact absurd h (by simp)
          | some t₁ => exact ⟨t₁, by rw [if_pos hload]; exact hphdr, h⟩
        · rename_i hload
          exact ⟨t, by rw [if_neg hload], h⟩

theorem loadPhdrs_eq_ok {file : File} {fileOfs : Int} (ht : t.Loading)
    (h : loadPhdrs tables n t file fileOfs = .ok (some t')) : t'.Loading := by
  induction n generalizing t file fileOfs with
  | zero =>
      obtain rfl := Option.some.inj (Except.ok.inj h)
      exact ht
  | succ n ih =>
      obtain ⟨t₁, hphdr, hrest⟩ := loadPhdrs_succ h
      refine ih ?_ hrest
      split at hphdr
      · exact loadPhdr_eq_ok ht (word_lt _ _) (word_lt _ _) hphdr
      · rw [hphdr]
        exact ht

/-- What `setup_stack` does where it succeeds. -/
theorem setupStack_maps {esp : Nat} (h : setupStack tables m = .ok (some (esp, m'))) :
    m.Maps m' stackPage := by
  unfold setupStack at h
  cases hget : m.pallocGetPage with
  | none => simp [hget] at h
  | some r =>
      obtain ⟨pool, hpool, hr⟩ := pallocGetPage_eq_some hget
      simp only [hget, hr] at h
      obtain ⟨⟨success, m₁⟩, hinst, h⟩ := bind_eq_ok h
      dsimp only at h
      cases success with
      | false => exact absurd h (by simp)
      | true =>
          rw [if_pos rfl] at h
          obtain ⟨-, rfl⟩ := Prod.mk.inj (Option.some.inj (Except.ok.inj h))
          exact ⟨_, pool, _, _, hpool, hinst⟩

/-- The stack page was not mapped before, so the heap does not start behind it. -/
theorem setupStack_image {esp : Nat} {mm : Mm} (ht : t.Loading)
    (h : setupStack tables t.mm = .ok (some (esp, mm))) : Process.Image { t with mm } := by
  have hsp : stackPage < userPages := by decide
  obtain ⟨kpage, pool, _, _, hpool, hinst⟩ := setupStack_maps h
  obtain ⟨hm, -, hleak, -⟩ := installPage_eq_ok ht.sound ht.fresh hsp hpool hinst
  refine ⟨hm, hleak ht.noLeak, ht.aligned, ?_, ht.empty⟩
  refine lt_of_le_of_ne ht.start_le fun heq => ?_
  have hlast := ht.last (by rw [heq]; decide)
  have hnone : t.mm.page stackPage = none := installPage_unmapped hsp hinst
  rw [heq] at hlast
  exact hlast hnone

/-- Before the first header nothing is mapped. -/
theorem Process.loading_init {pool : List Nat} (hpool : pool.Nodup) :
    Process.Loading ⟨⟨fun _ => none, [], pool⟩, 0, 0, 0, 0⟩ := by
  have hempty : ∀ p, (⟨fun _ => none, [], pool⟩ : Mm).page p = none := fun _ => rfl
  refine ⟨⟨?_, List.nodup_nil, ?_, ?_⟩, ⟨hpool, by simp⟩, fun f hf => absurd hf (by simp),
    rfl, Nat.zero_le _, fun h => ?_, rfl⟩
  · exact fun p hp => absurd (hempty p) hp
  · exact fun p e hp => by simp [hempty] at hp
  · exact fun p q e f hp => by simp [hempty] at hp
  · exact absurd rfl h

/-- **Every accepted executable** gives a sound address space and an empty heap
below the stack. -/
theorem load_image {pagedir : Bool} {pool : List Nat} {file : Option File} {l : Loaded}
    (hpool : pool.Nodup) (h : load pagedir pool tables file = .ok (some l)) : l.process.Image := by
  unfold load at h
  split at h
  · exact absurd h (by simp)
  · cases file with
    | none => exact absurd h (by simp)
    | some file =>
        dsimp only at h
        split at h
        · exact absurd h (by simp)
        · have hinit := Process.loading_init hpool
          obtain ⟨r, hphdrs, h⟩ := bind_eq_ok h
          cases r with
          | none => exact absurd h (by simp)
          | some t =>
              have ht := loadPhdrs_eq_ok hinit hphdrs
              obtain ⟨r, hstack, h⟩ := bind_eq_ok h
              cases r with
              | none => exact absurd h (by simp)
              | some r =>
                  obtain ⟨esp, mm⟩ := r
                  obtain rfl := Option.some.inj (Except.ok.inj h)
                  exact setupStack_image ht hstack

/-! ### A small executable -/

/-- The bytes of a 16-bit and of a 32-bit field. -/
def halfBytes (n : Nat) : List UInt8 := [UInt8.ofNat n, UInt8.ofNat (n / 2 ^ 8)]
def wordBytes (n : Nat) : List UInt8 := halfBytes n ++ halfBytes (n / 2 ^ 16)

@[simp] theorem length_halfBytes (n : Nat) : (halfBytes n).length = 2 := rfl

@[simp] theorem length_wordBytes (n : Nat) : (wordBytes n).length = 4 := by simp [wordBytes]

/-- An executable with one segment, a page of zeros at `vaddr`. -/
def program (vaddr : Nat) : File where
  bytes :=
    elfMagic ++ List.replicate 9 0 ++ halfBytes 2 ++ halfBytes 3 ++ wordBytes 1 ++ wordBytes vaddr ++
      wordBytes sizeofEhdr ++ wordBytes 0 ++ wordBytes 0 ++ halfBytes sizeofEhdr ++
      halfBytes sizeofPhdr ++ halfBytes 1 ++ halfBytes 0 ++ halfBytes 0 ++ halfBytes 0 ++
      (wordBytes PT_LOAD ++ wordBytes 0 ++ wordBytes vaddr ++ wordBytes vaddr ++ wordBytes 0 ++
        wordBytes 1 ++ wordBytes 7 ++ wordBytes PGSIZE)
  pos := 0
  length_lt := by simp [elfMagic]

/-- Loading it, with frames 1 and 2. -/
def loadProgram (vaddr : Nat) : Except Panic (Option Loaded) :=
  load true [1, 2] (fun _ => true) (some (program vaddr))

theorem eq_ok_get {r : Except Panic (Option Loaded)} (h : r.toOption.join.isSome) :
    r = .ok (some (r.toOption.join.get h)) := by
  cases r with
  | error e => exact absurd h (by simp [Except.toOption])
  | ok l =>
      cases l with
      | none => exact absurd h (by simp [Except.toOption])
      | some l => rfl

/-- The process of the program at `0x08048000`. Its heap starts at `0x08049000`. -/
def sample : Loaded := (loadProgram 0x08048000).toOption.join.get (by decide +kernel)

theorem load_sample : loadProgram 0x08048000 = .ok (some sample) := eq_ok_get _

end OsTools.Vm

import OsTools.Filesys.Directory
/-!
# OsTools.Filesys.Scan

What the scans of a directory find. `entry d x k` is the content of entry `k` of
the directory whose inode is in sector `x`; an entry is read and written as a
whole, or, when memory runs out, not at all, wherever it lies.

With memory a scan finds what there is. Without it a scan may end early: the
specifications say what holds then, too, since a name may be found absent and an
entry that is in use be written over.

The entries are at multiples of 20 bytes and may lie across two sectors. This is settled once, in
`transfer_entry`: a transfer at such an offset is the whole entry, or it is past the end. The two
scans are by induction on the passes that are left, with the entry that they have come to, and
`writeEntry` is what makes an entry of a directory be the content of the bytes written, with the
others as they were.
-/

namespace OsTools.Filesys

open OsTools.Kernel

/-- The bytes of entry `k` of the directory in sector `x`. -/
def slot (d : Block) (x k : Nat) : Mem := fun i => Fs.data d (diskInode d x) (ENTRY_SIZE * k + i)

/-- The content of entry `k`. -/
def entry (d : Block) (x k : Nat) : Option (Name × Nat) := Entry.content (slot d x k)

/-- The inode in sector `x` is a directory with room for `n` entries. -/
structure IsDir (d : Block) (x n : Nat) : Prop where
  length : (diskInode d x).length = (ENTRY_SIZE * n : Nat)
  terminated : ∀ k, k < n → entry d x k ≠ none → Entry.Terminated (slot d x k)

/-- The entries of a directory that does not change. -/
theorem slot_same {d d' : Block} {m : Bitmap} {L B : Nat → Prop} (h : Layout d m L)
    (hd : Changed d d' B) {x n : Nat} (hx : L x) (hdir : IsDir d x n)
    (hB : ∀ b, Owns d x b → ¬ B b) {k : Nat} (hk : k < n) : Entry.Same (slot d' x k) (slot d x k) := by
  intro i hi
  unfold slot
  rw [hd.diskInode (hB x (Or.inl rfl))]
  refine h.data_eq hd hx (fun b hb => hB b (Or.inr hb)) ?_
  rw [hdir.length]
  unfold ENTRY_SIZE at *
  omega

theorem entry_same {d d' : Block} {m : Bitmap} {L B : Nat → Prop} (h : Layout d m L)
    (hd : Changed d d' B) {x n : Nat} (hx : L x) (hdir : IsDir d x n)
    (hB : ∀ b, Owns d x b → ¬ B b) {k : Nat} (hk : k < n) : entry d' x k = entry d x k :=
  (slot_same h hd hx hdir hB hk).content

theorem IsDir.same {d d' : Block} {m : Bitmap} {L B : Nat → Prop} {x n : Nat} (hdir : IsDir d x n)
    (h : Layout d m L) (hd : Changed d d' B) (hx : L x) (hB : ∀ b, Owns d x b → ¬ B b) :
    IsDir d' x n := by
  refine ⟨?_, fun k hk hne => ?_⟩
  · rw [hd.diskInode (hB x (Or.inl rfl))]
    exact hdir.length
  · rw [entry_same h hd hx hdir hB hk] at hne
    exact (slot_same h hd hx hdir hB hk).terminated (hdir.terminated k hk hne)

/-- How many bytes of an entry can be transferred. -/
theorem transfer_entry {d : Block} {x n : Nat} (hdir : IsDir d x n) (k : Nat) :
    Fs.transfer (diskInode d x).length ENTRY_SIZE (ENTRY_SIZE * k) =
      if k < n then ENTRY_SIZE else 0 := by
  unfold Fs.transfer
  rw [hdir.length]
  unfold ENTRY_SIZE
  split <;> omega

namespace Core

variable {s : Fs} {L : Nat → Prop} {hs ds : List Nat} {i : Inode} {n : Nat}

/-- Reading an entry. -/
theorem readEntry (h : Core s L hs ds) (hi : i ∈ s.openInodes) (hdir : IsDir s.device i.sector n)
    (e : Mem) (k : Nat) : ∃ e' c mallocs,
      s.inodeReadAt i.id e ENTRY_SIZE (ENTRY_SIZE * k) = .ok ({ s with mallocs }, e', c) ∧
      (c = ENTRY_SIZE → k < n ∧ Entry.Same e' (slot s.device i.sector k)) ∧
      (s.mallocs = [] → mallocs = [] ∧ (k < n → c = ENTRY_SIZE)) := by
  obtain ⟨c, mallocs, hread, htransfers⟩ := h.inodeReadAt hi e ENTRY_SIZE (ENTRY_SIZE * k)
  have hle := htransfers.le
  rw [transfer_entry hdir k] at hle
  refine ⟨_, c, mallocs, hread, fun hc => ?_, fun hm => ?_⟩
  · have hk : k < n := by
      by_contra hk
      rw [if_neg hk, hc] at hle
      exact absurd hle (by decide)
    refine ⟨hk, fun j hj => ?_⟩
    have hin := @Mem.blit_of_inside e 0 c
      (fun k' => Fs.data s.device (diskInode s.device i.sector) (ENTRY_SIZE * k + k')) j (hc ▸ hj)
    rw [Nat.zero_add] at hin
    exact hin
  · obtain ⟨hmallocs, hall⟩ := htransfers.all hm
    refine ⟨hmallocs, fun hk => ?_⟩
    rw [hall, transfer_entry hdir k, if_pos hk]

/-- `lookup` from the entry `k` on. By induction on the reads that are left. A read that fails
for want of memory ends the scan like the end of the directory, so that what is said of the
absence of the name needs memory. -/
theorem lookupLoop_spec (h : Core s L hs ds) (hi : i ∈ s.openInodes)
    (hdir : IsDir s.device i.sector n) {name : Name} (hname : 0 ∉ name) {fuel k : Nat} (e : Mem)
    (hfuel : n < k + fuel) : ∃ mallocs r,
      Fs.lookupLoop i.id name fuel s e (ENTRY_SIZE * k) = .ok ({ s with mallocs }, r) ∧
      (∀ e' ofs, r = some (e', ofs) → ∃ j, j < n ∧ ofs = ENTRY_SIZE * j ∧
        Entry.Same e' (slot s.device i.sector j) ∧
        entry s.device i.sector j = some (name, Entry.inodeSector e')) ∧
      (s.mallocs = [] → mallocs = [] ∧ (r = none → ∀ j, k ≤ j → j < n → ∀ y,
        entry s.device i.sector j ≠ some (name, y))) := by
  induction fuel generalizing s k e with
  | zero => exact ⟨s.mallocs, none, rfl, fun _ _ hr => (by cases hr), fun hm => ⟨hm, fun _ j h₁ h₂ =>
      by omega⟩⟩
  | succ fuel ih =>
      obtain ⟨e', c, mallocs₁, hread, hsome, hall⟩ := h.readEntry hi hdir e k
      unfold Fs.lookupLoop
      rw [hread, ok_bind]
      dsimp only
      by_cases hc : c = ENTRY_SIZE
      · obtain ⟨hk, hsame⟩ := hsome hc
        rw [if_pos hc]
        by_cases hfound : Entry.inUse e' ∧ Entry.sameName name e' 4
        · -- the name is found in entry `k`
          have hne : entry s.device i.sector k ≠ none := by
            unfold entry
            rw [← hsame.content]
            unfold Entry.content
            rw [if_pos hfound.1]
            exact Option.some_ne_none _
          have hterm := hsame.terminated (hdir.terminated k hk hne)
          have hstring := (Entry.sameName_iff hname hterm).mp hfound.2
          rw [if_pos hfound]
          refine ⟨mallocs₁, some (e', ENTRY_SIZE * k), rfl, fun e₂ ofs hr => ?_, fun hm =>
            ⟨(hall hm).1, fun hr => (by cases hr)⟩⟩
          cases hr
          refine ⟨k, hk, rfl, hsame, ?_⟩
          unfold entry
          rw [← hsame.content]
          exact Entry.content_eq_some.mpr ⟨hfound.1, hstring, rfl⟩
        · rw [if_neg hfound]
          obtain ⟨mallocs, r, hloop, hr, hnone⟩ := ih (s := { s with mallocs := mallocs₁ })
            (k := k + 1) (h.setMallocs mallocs₁) hi hdir e' (by omega)
          refine ⟨mallocs, r, hloop, hr, fun hm => ?_⟩
          obtain ⟨hmallocs, hrest⟩ := hnone (hall hm).1
          refine ⟨hmallocs, fun hr j h₁ h₂ y hy => ?_⟩
          rcases Nat.eq_or_lt_of_le h₁ with rfl | hlt
          · -- entry `k` has another name
            have hterm := hsame.terminated (hdir.terminated k hk (by
              rw [hy]
              exact Option.some_ne_none _))
            unfold entry at hy
            rw [← hsame.content] at hy
            obtain ⟨huse, hstring, -⟩ := Entry.content_eq_some.mp hy
            exact hfound ⟨huse, (Entry.sameName_iff hname hterm).mpr hstring⟩
          · exact hrest hr j hlt h₂ y hy
      · rw [if_neg hc]
        refine ⟨mallocs₁, none, rfl, fun _ _ hr => (by cases hr), fun hm => ⟨(hall hm).1,
          fun _ j h₁ h₂ => absurd ((hall hm).2 (Nat.lt_of_le_of_lt h₁ h₂)) hc⟩⟩

theorem passes_lt (h : Core s L hs ds) (hi : i ∈ s.openInodes) (hdir : IsDir s.device i.sector n) :
    n < 0 + Fs.passes i := by
  obtain ⟨-, hdata⟩ := h.backed i hi
  unfold Fs.passes
  rw [hdata, hdir.length]
  unfold ENTRY_SIZE
  omega

/-- `lookup`. -/
theorem lookup (h : Core s L hs ds) (hi : i ∈ s.openInodes) (hdir : IsDir s.device i.sector n)
    {name : Name} (hname : 0 ∉ name) (pos : Nat) (e : Mem) : ∃ mallocs r,
      s.lookup ⟨i.id, pos⟩ name e = .ok ({ s with mallocs }, r) ∧
      (∀ e' ofs, r = some (e', ofs) → ∃ j, j < n ∧ ofs = ENTRY_SIZE * j ∧
        Entry.Same e' (slot s.device i.sector j) ∧
        entry s.device i.sector j = some (name, Entry.inodeSector e')) ∧
      (s.mallocs = [] → mallocs = [] ∧ (r = none → ∀ j, j < n → ∀ y,
        entry s.device i.sector j ≠ some (name, y))) := by
  obtain ⟨mallocs, r, hloop, hr, hnone⟩ := h.lookupLoop_spec hi hdir hname e (h.passes_lt hi hdir)
  refine ⟨mallocs, r, ?_, hr, fun hm => ⟨(hnone hm).1, fun hr j hj =>
    (hnone hm).2 hr j (Nat.zero_le _) hj⟩⟩
  unfold Fs.lookup
  rw [h.table.inode hi, ok_bind]
  exact hloop

/-- The scan for a free entry, from the entry `k` on: it ends at an entry that is free, or at
the end of the directory. By the same induction. -/
theorem freeLoop_spec (h : Core s L hs ds) (hi : i ∈ s.openInodes)
    (hdir : IsDir s.device i.sector n) {fuel k : Nat} (e : Mem) (hk : k ≤ n)
    (hfuel : n < k + fuel) : ∃ mallocs e' j,
      Fs.freeLoop i.id fuel s e (ENTRY_SIZE * k) = .ok ({ s with mallocs }, e', ENTRY_SIZE * j) ∧
      k ≤ j ∧ j ≤ n ∧
      (s.mallocs = [] → mallocs = [] ∧
        (∀ l, k ≤ l → l < j → entry s.device i.sector l ≠ none) ∧
        (j < n → entry s.device i.sector j = none)) := by
  induction fuel generalizing s k e with
  | zero => omega
  | succ fuel ih =>
      obtain ⟨e', c, mallocs₁, hread, hsome, hall⟩ := h.readEntry hi hdir e k
      unfold Fs.freeLoop
      rw [hread, ok_bind]
      dsimp only
      by_cases hc : c = ENTRY_SIZE
      · obtain ⟨hlt, hsame⟩ := hsome hc
        have hcontent : entry s.device i.sector k = Entry.content e' := hsame.content.symm
        rw [if_pos hc]
        by_cases huse : Entry.inUse e' = true
        · rw [if_neg (not_not_intro huse)]
          obtain ⟨mallocs, e₂, j, hloop, hle, hjn, hrest⟩ := ih
            (s := { s with mallocs := mallocs₁ }) (k := k + 1) (h.setMallocs mallocs₁) hi hdir e' hlt
            (by omega)
          refine ⟨mallocs, e₂, j, hloop, by omega, hjn, fun hm => ?_⟩
          obtain ⟨hmallocs, hused, hfree⟩ := hrest (hall hm).1
          refine ⟨hmallocs, fun l h₁ h₂ => ?_, hfree⟩
          rcases Nat.eq_or_lt_of_le h₁ with rfl | hkl
          · rw [hcontent]
            unfold Entry.content
            rw [if_pos huse]
            exact Option.some_ne_none _
          · exact hused l hkl h₂
        · rw [if_pos huse]
          refine ⟨mallocs₁, e', k, rfl, Nat.le_refl _, hk, fun hm => ⟨(hall hm).1,
            fun l h₁ h₂ => by omega, fun _ => ?_⟩⟩
          rw [hcontent]
          unfold Entry.content
          rw [if_neg huse]
      · rw [if_neg hc]
        exact ⟨mallocs₁, e', k, rfl, Nat.le_refl _, hk, fun hm => ⟨(hall hm).1,
          fun l h₁ h₂ => by omega, fun hkn => absurd ((hall hm).2 hkn) hc⟩⟩

/-- What writing entry `k` of the directory in sector `x` changes. -/
structure Wrote (s s' : Fs) (x n k : Nat) (e : Mem) : Prop where
  lt : k < n
  frame : Frame s s' (DataSector s.device x)
  freeMap : s'.freeMap = s.freeMap
  entry : entry s'.device x k = Entry.content e
  other : ∀ j, j < n → j ≠ k → Filesys.entry s'.device x j = Filesys.entry s.device x j
  isDir : IsDir s'.device x n

/-- Writing an entry: all of it or nothing. An entry may lie in two sectors, and then a write
could stop between them; but the bounce buffer is allocated once and kept, so that it is
missing for both or for none. -/
theorem writeEntry (h : Core s L hs ds) (hi : i ∈ s.openInodes) (hdir : IsDir s.device i.sector n)
    {e : Mem} (hterm : Entry.content e ≠ none → Entry.Terminated e) (k : Nat) : ∃ s' c,
      s.inodeWriteAt i.id e ENTRY_SIZE (ENTRY_SIZE * k) = .ok (s', c) ∧
      Core s' L hs ds ∧
      (c = ENTRY_SIZE → Wrote s s' i.sector n k e) ∧
      (c ≠ ENTRY_SIZE → ∃ mallocs, s' = { s with mallocs }) ∧
      (s.mallocs = [] → s'.mallocs = [] ∧
        (i.denyWriteCnt = 0 → k < n → c = ENTRY_SIZE)) := by
  obtain ⟨c, mallocs, hwrite, hle, htransfers, hdenied⟩ :=
    h.inodeWriteAt hi e ENTRY_SIZE (ENTRY_SIZE * k)
  obtain ⟨hL, -⟩ := h.backed i hi
  have hn : c ≤ (diskInode s.device i.sector).length.toNat - ENTRY_SIZE * k := by
    unfold Fs.transfer at hle
    omega
  rw [transfer_entry hdir k] at hle htransfers
  have hframe := h.wrote_frame hL e mallocs hn
  have hinode : diskInode (s.wrote ((diskInode s.device i.sector).start * BLOCK_SECTOR_SIZE +
      ENTRY_SIZE * k) c e mallocs).device i.sector = diskInode s.device i.sector :=
    hframe.device.diskInode (h.layout.not_data hL hL)
  refine ⟨_, c, hwrite, h.wrote hL e mallocs hn, fun hc => ?_, fun hc => ?_, fun hm => ?_⟩
  · have hk : k < n := by
      by_contra hk
      rw [if_neg hk, hc] at hle
      exact absurd hle (by decide)
    -- the bytes of the entry, and those of the others
    have hself : Entry.Same (slot (s.wrote ((diskInode s.device i.sector).start *
        BLOCK_SECTOR_SIZE + ENTRY_SIZE * k) c e mallocs).device i.sector k) e := by
      intro j hj
      unfold slot
      rw [hinode]
      unfold Fs.data Fs.wrote
      dsimp only
      rw [← Nat.add_assoc, Mem.blit_of_inside (hc ▸ hj)]
    have hother : ∀ j, j ≠ k → Entry.Same (slot (s.wrote ((diskInode s.device i.sector).start *
        BLOCK_SECTOR_SIZE + ENTRY_SIZE * k) c e mallocs).device i.sector j)
          (slot s.device i.sector j) := by
      intro j hne b hb
      unfold slot
      rw [hinode]
      unfold Fs.data Fs.wrote
      dsimp only
      refine Mem.blit_of_outside ?_
      rw [hc]
      unfold ENTRY_SIZE at *
      omega
    refine ⟨hk, hframe, rfl, hself.content, fun j _ hne => (hother j hne).content, ?_,
      fun j hj hne => ?_⟩
    · rw [hinode]
      exact hdir.length
    · by_cases hjk : j = k
      · rw [hjk] at hne ⊢
        unfold Filesys.entry at hne
        rw [hself.content] at hne
        exact hself.terminated (hterm hne)
      · unfold Filesys.entry at hne
        rw [(hother j hjk).content] at hne
        exact (hother j hjk).terminated (hdir.terminated j hj hne)
  · have hzero : c = 0 := by
      by_cases hdeny : i.denyWriteCnt = 0
      · rcases (htransfers hdeny).small (by decide) with hz | hall
        · exact hz
        · by_cases hk : k < n
          · rw [if_pos hk] at hall
            exact absurd hall hc
          · rw [if_neg hk] at hall
            exact hall
      · exact hdenied hdeny
    refine ⟨mallocs, ?_⟩
    rw [hzero, Fs.wrote_zero]
  · by_cases hdeny : i.denyWriteCnt = 0
    · obtain ⟨hmallocs, hall⟩ := (htransfers hdeny).all hm
      refine ⟨hmallocs, fun _ hk => ?_⟩
      rw [hall, if_pos hk]
    · refine ⟨?_, fun h0 => absurd h0 hdeny⟩
      have hden := Fs.inodeWriteAt_denied (h.table.inode hi) hdeny e ENTRY_SIZE (ENTRY_SIZE * k)
      rw [hden] at hwrite
      have hstate := (Prod.mk.inj (Except.ok.inj hwrite)).1
      rw [← hstate]
      exact hm

end Core

end OsTools.Filesys

import Mathlib.Data.List.Chain
import Mathlib.Data.List.Nodup
import Mathlib.Data.List.Perm.Subperm
import OsTools.Lib.Bytes
/-!
# OsTools.Lib.DList

Doubly linked lists that are threaded through byte memory. A cell at address `x`
holds the address of the cell before it in the four bytes at `x` and that of the cell
behind it in the four bytes at `x + 4`. A list lies between two sentinel cells.

`Linked m h t l` says that the cells `l` are linked in this order between the
sentinels `h` and `t`, apart from each other. A segment of such a list can be taken out
(`Linked.cut`) and one that is linked up in itself can be put in (`Linked.paste`); a
single cell is a segment. Both write to the cells next to the seam only.

## Proof shape

Cells are apart if their eight bytes are (`CellsApart`), and `Cells` says so of a whole
list. With it the four equations for reading a link behind a write, of the same cell or of
another one, become rewrite rules (`next_unlink`, `next_link` and the same for `prev`), and
no proof above them computes with addresses.

A list is a chain of links (`Links`) with the two sentinels as its ends. A chain that is cut
in two or joined from two is so at one seam, and a cut and a paste change the links there
and no others. Everything that is done to a list (an insertion, a removal, a splice) is made
of these two.

`SameBut` is the frame: which bytes a change may have touched. It composes, so that a loop
has the union of what its rounds touch.
-/

namespace OsTools

namespace Mem

/-- The cell before the cell at `x`. -/
def prev (m : Mem) (x : Nat) : Nat := m.load x 4

/-- The cell behind the cell at `x`. -/
def next (m : Mem) (x : Nat) : Nat := m.load (x + 4) 4

def setPrev (m : Mem) (x v : Nat) : Mem := m.store x 4 v

def setNext (m : Mem) (x v : Nat) : Mem := m.store (x + 4) 4 v

/-- Take the cells between `p` and `q` out. -/
def unlink (m : Mem) (p q : Nat) : Mem := (m.setNext p q).setPrev q p

/-- Put a segment from `first` to `last` in between `p` and `q`. -/
def link (m : Mem) (p first last q : Nat) : Mem :=
  (((m.setPrev first p).setNext last q).setNext p first).setPrev q last

/-- `m'` differs from `m` in `P` only. -/
def SameBut (m m' : Mem) (P : Nat → Prop) : Prop := ∀ x, ¬ P x → m' x = m x

variable {m m₁ m' : Mem} {P Q : Nat → Prop} {a n k v x y : Nat}

theorem SameBut.refl (m : Mem) (P : Nat → Prop) : m.SameBut m P := fun _ _ => rfl

theorem SameBut.mono (h : m.SameBut m' P) (hPQ : ∀ x, P x → Q x) : m.SameBut m' Q :=
  fun x hx => h x fun hP => hx (hPQ x hP)

theorem SameBut.trans (h₁ : m.SameBut m₁ P) (h₂ : m₁.SameBut m' P) : m.SameBut m' P :=
  fun x hx => (h₂ x hx).trans (h₁ x hx)

theorem SameBut.blit (m : Mem) (a n : Nat) (f : Mem) :
    m.SameBut (m.blit a n f) fun x => a ≤ x ∧ x < a + n :=
  fun x hx => blit_of_outside (by omega)

theorem SameBut.load (h : m.SameBut m' P) (hP : ∀ i, i < n → ¬ P (a + i)) :
    m'.load a n = m.load a n := load_congr fun i hi => h _ (hP i hi)

end Mem

/-- Two cells do not overlap. -/
def CellsApart (x y : Nat) : Prop := x + 8 ≤ y ∨ y + 8 ≤ x

/-- The bytes of the cells `l`. -/
def InCells (l : List Nat) (x : Nat) : Prop := ∃ c ∈ l, c ≤ x ∧ x < c + 8

namespace Mem

variable {m m' : Mem} {v x y : Nat}

theorem prev_setPrev_self (hv : v < 2 ^ 32) : (m.setPrev x v).prev x = v := load_store hv

theorem next_setNext_self (hv : v < 2 ^ 32) : (m.setNext x v).next x = v := load_store hv

theorem prev_setPrev (h : CellsApart x y) : (m.setPrev x v).prev y = m.prev y :=
  load_blit_of_disjoint (by unfold CellsApart at h; omega)

theorem next_setNext (h : CellsApart x y) : (m.setNext x v).next y = m.next y :=
  load_blit_of_disjoint (by unfold CellsApart at h; omega)

theorem prev_setNext (h : x = y ∨ CellsApart x y) : (m.setNext x v).prev y = m.prev y :=
  load_blit_of_disjoint (by unfold CellsApart at h; omega)

theorem next_setPrev (h : x = y ∨ CellsApart x y) : (m.setPrev x v).next y = m.next y :=
  load_blit_of_disjoint (by unfold CellsApart at h; omega)

theorem SameBut.prev {P : Nat → Prop} (h : m.SameBut m' P) (hP : ∀ i, i < 8 → ¬ P (x + i)) :
    m'.prev x = m.prev x := h.load fun i hi => hP i (by omega)

theorem SameBut.next {P : Nat → Prop} (h : m.SameBut m' P) (hP : ∀ i, i < 8 → ¬ P (x + i)) :
    m'.next x = m.next x := h.load fun i hi => by
  rw [Nat.add_assoc]
  exact hP _ (by omega)

theorem SameBut.setPrev (m : Mem) (x v : Nat) : m.SameBut (m.setPrev x v) (InCells [x]) :=
  (SameBut.blit m x 4 _).mono fun y hy => ⟨x, List.mem_singleton_self x, hy.1, by omega⟩

theorem SameBut.setNext (m : Mem) (x v : Nat) : m.SameBut (m.setNext x v) (InCells [x]) :=
  (SameBut.blit m (x + 4) 4 _).mono fun y hy =>
    ⟨x, List.mem_singleton_self x, by omega, by omega⟩

end Mem

/-- Cells that lie apart from each other, within the address space. -/
structure Cells (C : List Nat) : Prop where
  apart : C.Pairwise CellsApart
  bound : ∀ x ∈ C, 0 < x ∧ x + 8 ≤ 2 ^ 32

namespace Cells

variable {C D : List Nat} {x y : Nat}

theorem lt (h : Cells C) (hx : x ∈ C) : x < 2 ^ 32 := by
  have := (h.bound x hx).2
  omega

theorem nodup (h : Cells C) : C.Nodup := by
  refine h.apart.imp fun {x y} hxy heq => ?_
  unfold CellsApart at hxy
  omega

theorem cellsApart (h : Cells C) (hx : x ∈ C) (hy : y ∈ C) (hne : x ≠ y) : CellsApart x y := by
  have hsymm : Std.Symm CellsApart := ⟨fun _ _ hxy => Or.symm hxy⟩
  exact h.apart.forall hx hy hne

theorem eq_or_apart (h : Cells C) (hx : x ∈ C) (hy : y ∈ C) : x = y ∨ CellsApart x y := by
  by_cases hxy : x = y
  · exact Or.inl hxy
  · exact Or.inr (h.cellsApart hx hy hxy)

theorem perm (h : Cells C) (hperm : C.Perm D) : Cells D := by
  have hsymm : Std.Symm CellsApart := ⟨fun _ _ hxy => Or.symm hxy⟩
  exact ⟨h.apart.perm hperm fun hxy => Or.symm hxy, fun x hx => h.bound x (hperm.mem_iff.mpr hx)⟩

theorem sublist (h : Cells C) (hsub : D.Sublist C) : Cells D :=
  ⟨h.apart.sublist hsub, fun x hx => h.bound x (hsub.subset hx)⟩

theorem append (hC : Cells C) (hD : Cells D) (hCD : ∀ x ∈ C, ∀ y ∈ D, CellsApart x y) :
    Cells (C ++ D) := by
  refine ⟨List.pairwise_append.mpr ⟨hC.apart, hD.apart, hCD⟩, fun x hx => ?_⟩
  rcases List.mem_append.mp hx with hx | hx
  · exact hC.bound x hx
  · exact hD.bound x hx

/-- There is room for `2 ^ 29` cells. -/
theorem length_le (h : Cells C) : C.length ≤ 2 ^ 29 := by
  have hnodup : (C.map (· / 8)).Nodup := by
    refine List.pairwise_map.mpr (h.apart.imp fun {x y} hxy heq => ?_)
    unfold CellsApart at hxy
    omega
  have hsub : C.map (· / 8) ⊆ List.range (2 ^ 29) := by
    intro k hk
    obtain ⟨x, hx, rfl⟩ := List.mem_map.mp hk
    have := h.lt hx
    exact List.mem_range.mpr (by omega)
  have hlen := (List.subperm_of_subset hnodup hsub).length_le
  rwa [List.length_map, List.length_range] at hlen

end Cells

/-! ### Writing links -/

section Writes

variable {m : Mem} {C : List Nat} {p q first last v x y : Nat}

namespace Mem

theorem next_lt (m : Mem) (x : Nat) : m.next x < 2 ^ 32 := load_lt m (x + 4) 4

theorem prev_lt (m : Mem) (x : Nat) : m.prev x < 2 ^ 32 := load_lt m x 4

theorem next_setNext_eq (h : x = y ∨ CellsApart x y) (hv : v < 2 ^ 32) :
    (m.setNext x v).next y = if x = y then v else m.next y := by
  by_cases hxy : x = y
  · rw [if_pos hxy, ← hxy]
    exact next_setNext_self hv
  · rw [if_neg hxy]
    exact next_setNext (h.resolve_left hxy)

theorem prev_setPrev_eq (h : x = y ∨ CellsApart x y) (hv : v < 2 ^ 32) :
    (m.setPrev x v).prev y = if x = y then v else m.prev y := by
  by_cases hxy : x = y
  · rw [if_pos hxy, ← hxy]
    exact prev_setPrev_self hv
  · rw [if_neg hxy]
    exact prev_setPrev (h.resolve_left hxy)

end Mem

namespace Cells

theorem next_unlink (h : Cells C) (hp : p ∈ C) (hq : q ∈ C) (hy : y ∈ C) :
    (m.unlink p q).next y = if p = y then q else m.next y := by
  unfold Mem.unlink
  rw [Mem.next_setPrev (h.eq_or_apart hq hy), Mem.next_setNext_eq (h.eq_or_apart hp hy) (h.lt hq)]

theorem prev_unlink (h : Cells C) (hp : p ∈ C) (hq : q ∈ C) (hy : y ∈ C) :
    (m.unlink p q).prev y = if q = y then p else m.prev y := by
  unfold Mem.unlink
  rw [Mem.prev_setPrev_eq (h.eq_or_apart hq hy) (h.lt hp), Mem.prev_setNext (h.eq_or_apart hp hy)]

theorem next_link (h : Cells C) (hp : p ∈ C) (hf : first ∈ C) (hl : last ∈ C) (hq : q ∈ C)
    (hy : y ∈ C) : (m.link p first last q).next y =
      if p = y then first else if last = y then q else m.next y := by
  unfold Mem.link
  rw [Mem.next_setPrev (h.eq_or_apart hq hy), Mem.next_setNext_eq (h.eq_or_apart hp hy) (h.lt hf),
    Mem.next_setNext_eq (h.eq_or_apart hl hy) (h.lt hq), Mem.next_setPrev (h.eq_or_apart hf hy)]

theorem prev_link (h : Cells C) (hp : p ∈ C) (hf : first ∈ C) (hl : last ∈ C) (hq : q ∈ C)
    (hy : y ∈ C) : (m.link p first last q).prev y =
      if q = y then last else if first = y then p else m.prev y := by
  unfold Mem.link
  rw [Mem.prev_setPrev_eq (h.eq_or_apart hq hy) (h.lt hl), Mem.prev_setNext (h.eq_or_apart hp hy),
    Mem.prev_setNext (h.eq_or_apart hl hy), Mem.prev_setPrev_eq (h.eq_or_apart hf hy) (h.lt hp)]

end Cells

theorem InCells.mono {D : List Nat} (h : InCells C x) (hsub : C ⊆ D) : InCells D x := by
  obtain ⟨c, hc, hx⟩ := h
  exact ⟨c, hsub hc, hx⟩

theorem Mem.SameBut.setPrev_in (hx : x ∈ C) (v : Nat) : m.SameBut (m.setPrev x v) (InCells C) :=
  (SameBut.setPrev m x v).mono fun _ hy => hy.mono (by simpa using hx)

theorem Mem.SameBut.setNext_in (hx : x ∈ C) (v : Nat) : m.SameBut (m.setNext x v) (InCells C) :=
  (SameBut.setNext m x v).mono fun _ hy => hy.mono (by simpa using hx)

theorem Mem.SameBut.unlink (hp : p ∈ C) (hq : q ∈ C) : m.SameBut (m.unlink p q) (InCells C) :=
  (SameBut.setNext_in hp q).trans (SameBut.setPrev_in hq p)

theorem Mem.SameBut.link (hp : p ∈ C) (hf : first ∈ C) (hl : last ∈ C) (hq : q ∈ C) :
    m.SameBut (m.link p first last q) (InCells C) :=
  (((SameBut.setPrev_in hf p).trans (SameBut.setNext_in hl q)).trans
    (SameBut.setNext_in hp first)).trans (SameBut.setPrev_in hq last)

end Writes

/-! ### Links -/

/-- Neighbours in the list point to each other. -/
def Links (m : Mem) : List Nat → Prop
  | [] => True
  | [_] => True
  | x :: y :: l => m.next x = y ∧ m.prev y = x ∧ Links m (y :: l)

/-- Two neighbours. -/
def Joined (m : Mem) (x y : Nat) : Prop := m.next x = y ∧ m.prev y = x

section Links

variable {m m' : Mem} {l A B s : List Nat} {p q first last x y z : Nat}

theorem links_iff_isChain : Links m l ↔ l.IsChain (Joined m) := by
  induction l with
  | nil => simp [Links]
  | cons x l ih =>
      cases l with
      | nil => simp [Links]
      | cons y l =>
          rw [List.isChain_cons_cons, ← ih]
          exact and_assoc.symm

/-- A list of links, cut between two of its cells. -/
theorem links_append : Links m (A ++ B) ↔
    Links m A ∧ Links m B ∧ ∀ p ∈ A.getLast?, ∀ q ∈ B.head?, Joined m p q := by
  simp only [links_iff_isChain, List.isChain_append]

theorem isChain_congr {R S : Nat → Nat → Prop} (h : l.IsChain R)
    (hRS : ∀ x ∈ l.dropLast, ∀ y ∈ l.tail, R x y → S x y) : l.IsChain S := by
  induction l with
  | nil => exact List.isChain_nil
  | cons x l ih =>
      cases l with
      | nil => exact List.isChain_singleton x
      | cons y l =>
          obtain ⟨hxy, hrest⟩ := List.isChain_cons_cons.mp h
          refine List.isChain_cons_cons.mpr ⟨hRS x List.mem_cons_self y List.mem_cons_self hxy,
            ih hrest fun z hz w hw => hRS z ?_ w (List.mem_of_mem_tail hw)⟩
          rw [List.dropLast_cons_cons]
          exact List.mem_cons_of_mem _ hz

theorem Links.congr (h : Links m l) (hnext : ∀ x ∈ l.dropLast, m'.next x = m.next x)
    (hprev : ∀ x ∈ l.tail, m'.prev x = m.prev x) : Links m' l := by
  rw [links_iff_isChain] at h ⊢
  refine isChain_congr h fun x hx y hy hxy => ?_
  obtain ⟨hnxt, hprv⟩ := hxy
  exact ⟨(hnext x hx).trans hnxt, (hprev y hy).trans hprv⟩

theorem ne_of_mem_dropLast (h : l.Nodup) (hx : x ∈ l.dropLast) (hz : z ∈ l.getLast?) : z ≠ x := by
  obtain ⟨l, rfl⟩ := List.getLast?_eq_some_iff.mp hz
  rw [List.dropLast_concat] at hx
  exact ((List.nodup_append.mp h).2.2 x hx z (List.mem_singleton_self z)).symm

theorem ne_of_mem_tail (h : l.Nodup) (hx : x ∈ l.tail) (hz : z ∈ l.head?) : z ≠ x := by
  cases l with
  | nil => cases hx
  | cons w l =>
      cases hz
      intro heq
      exact (List.nodup_cons.mp h).1 (heq ▸ hx)

/-- Taking the segment `s` out. -/
theorem Links.cut (h : Links m (A ++ (s ++ B))) (hnodup : (A ++ (s ++ B)).Nodup)
    (hp : p ∈ A.getLast?) (hq : q ∈ B.head?)
    (hnext : ∀ y ∈ A ++ (s ++ B), m'.next y = if p = y then q else m.next y)
    (hprev : ∀ y ∈ A ++ (s ++ B), m'.prev y = if q = y then p else m.prev y) :
    Links m' (A ++ B) ∧ Links m' s := by
  obtain ⟨hA, hsB, -⟩ := links_append.mp h
  obtain ⟨hs, hB, -⟩ := links_append.mp hsB
  obtain ⟨hnA, hnsB, hdA⟩ := List.nodup_append.mp hnodup
  obtain ⟨-, hnB, hds⟩ := List.nodup_append.mp hnsB
  have hpA : p ∈ A := List.mem_of_getLast? hp
  have hqB : q ∈ B := List.mem_of_head? hq
  have hinA : ∀ y ∈ A, y ∈ A ++ (s ++ B) := fun y hy => List.mem_append_left _ hy
  have hins : ∀ y ∈ s, y ∈ A ++ (s ++ B) := fun y hy =>
    List.mem_append_right _ (List.mem_append_left _ hy)
  have hinB : ∀ y ∈ B, y ∈ A ++ (s ++ B) := fun y hy =>
    List.mem_append_right _ (List.mem_append_right _ hy)
  have hAB : ∀ x ∈ A, ∀ y ∈ B, x ≠ y := fun x hx y hy => hdA x hx y (List.mem_append_right _ hy)
  have hAs : ∀ x ∈ A, ∀ y ∈ s, x ≠ y := fun x hx y hy => hdA x hx y (List.mem_append_left _ hy)
  refine ⟨links_append.mpr ⟨hA.congr (fun x hx => ?_) fun x hx => ?_,
    hB.congr (fun x hx => ?_) fun x hx => ?_, fun p' hp' q' hq' => ⟨?_, ?_⟩⟩,
    hs.congr (fun x hx => ?_) fun x hx => ?_⟩
  · rw [hnext x (hinA x (List.dropLast_subset _ hx)), if_neg (ne_of_mem_dropLast hnA hx hp)]
  · have hx' := List.mem_of_mem_tail hx
    rw [hprev x (hinA x hx'), if_neg (hAB x hx' q hqB).symm]
  · have hx' := List.dropLast_subset _ hx
    rw [hnext x (hinB x hx'), if_neg (hAB p hpA x hx')]
  · rw [hprev x (hinB x (List.mem_of_mem_tail hx)), if_neg (ne_of_mem_tail hnB hx hq)]
  · rw [Option.mem_unique hp' hp, Option.mem_unique hq' hq, hnext p (hinA p hpA), if_pos rfl]
  · rw [Option.mem_unique hp' hp, Option.mem_unique hq' hq, hprev q (hinB q hqB), if_pos rfl]
  · have hx' := List.dropLast_subset _ hx
    rw [hnext x (hins x hx'), if_neg (hAs p hpA x hx')]
  · have hx' := List.mem_of_mem_tail hx
    rw [hprev x (hins x hx'), if_neg (hds x hx' q hqB).symm]

/-- Putting the segment `s` in. The two equations say what the links are behind the writes,
and the chain is looked at in its three parts, in each of which only the link across the seam
is new. -/
theorem Links.paste (hA : Links m A) (hs : Links m s) (hB : Links m B)
    (hnodup : (A ++ (s ++ B)).Nodup)
    (hp : p ∈ A.getLast?) (hf : first ∈ s.head?) (hl : last ∈ s.getLast?) (hq : q ∈ B.head?)
    (hnext : ∀ y ∈ A ++ (s ++ B),
      m'.next y = if p = y then first else if last = y then q else m.next y)
    (hprev : ∀ y ∈ A ++ (s ++ B),
      m'.prev y = if q = y then last else if first = y then p else m.prev y) :
    Links m' (A ++ (s ++ B)) := by
  obtain ⟨hnA, hnsB, hdA⟩ := List.nodup_append.mp hnodup
  obtain ⟨hns, hnB, hds⟩ := List.nodup_append.mp hnsB
  have hpA : p ∈ A := List.mem_of_getLast? hp
  have hfs : first ∈ s := List.mem_of_head? hf
  have hls : last ∈ s := List.mem_of_getLast? hl
  have hqB : q ∈ B := List.mem_of_head? hq
  have hinA : ∀ y ∈ A, y ∈ A ++ (s ++ B) := fun y hy => List.mem_append_left _ hy
  have hins : ∀ y ∈ s, y ∈ A ++ (s ++ B) := fun y hy =>
    List.mem_append_right _ (List.mem_append_left _ hy)
  have hinB : ∀ y ∈ B, y ∈ A ++ (s ++ B) := fun y hy =>
    List.mem_append_right _ (List.mem_append_right _ hy)
  have hAB : ∀ x ∈ A, ∀ y ∈ B, x ≠ y := fun x hx y hy => hdA x hx y (List.mem_append_right _ hy)
  have hAs : ∀ x ∈ A, ∀ y ∈ s, x ≠ y := fun x hx y hy => hdA x hx y (List.mem_append_left _ hy)
  refine links_append.mpr ⟨hA.congr (fun x hx => ?_) fun x hx => ?_, links_append.mpr
    ⟨hs.congr (fun x hx => ?_) fun x hx => ?_, hB.congr (fun x hx => ?_) fun x hx => ?_,
      fun z hz w hw => ⟨?_, ?_⟩⟩, fun z hz w hw => ⟨?_, ?_⟩⟩
  · have hx' := List.dropLast_subset _ hx
    rw [hnext x (hinA x hx'), if_neg (ne_of_mem_dropLast hnA hx hp),
      if_neg (hAs x hx' last hls).symm]
  · have hx' := List.mem_of_mem_tail hx
    rw [hprev x (hinA x hx'), if_neg (hAB x hx' q hqB).symm, if_neg (hAs x hx' first hfs).symm]
  · have hx' := List.dropLast_subset _ hx
    rw [hnext x (hins x hx'), if_neg (hAs p hpA x hx'), if_neg (ne_of_mem_dropLast hns hx hl)]
  · have hx' := List.mem_of_mem_tail hx
    rw [hprev x (hins x hx'), if_neg (hds x hx' q hqB).symm, if_neg (ne_of_mem_tail hns hx hf)]
  · have hx' := List.dropLast_subset _ hx
    rw [hnext x (hinB x hx'), if_neg (hAB p hpA x hx'), if_neg (hds last hls x hx')]
  · have hx' := List.mem_of_mem_tail hx
    rw [hprev x (hinB x hx'), if_neg (ne_of_mem_tail hnB hx hq), if_neg (hds first hfs x hx')]
  · rw [Option.mem_unique hz hl, Option.mem_unique hw hq, hnext last (hins last hls),
      if_neg (hAs p hpA last hls), if_pos rfl]
  · rw [Option.mem_unique hz hl, Option.mem_unique hw hq, hprev q (hinB q hqB), if_pos rfl]
  · rw [List.head?_append_of_ne_nil _ (List.ne_nil_of_mem hfs)] at hw
    rw [Option.mem_unique hz hp, Option.mem_unique hw hf, hnext p (hinA p hpA), if_pos rfl]
  · rw [List.head?_append_of_ne_nil _ (List.ne_nil_of_mem hfs)] at hw
    rw [Option.mem_unique hz hp, Option.mem_unique hw hf, hprev first (hins first hfs),
      if_neg (hds first hfs q hqB).symm, if_pos rfl]

end Links

/-! ### Lists -/

/-- The cells `l` are linked in this order between the sentinels `h` and `t`. -/
structure Linked (m : Mem) (h t : Nat) (l : List Nat) : Prop where
  links : Links m (h :: l ++ [t])
  first : m.prev h = 0
  last : m.next t = 0
  apart : (h :: l ++ [t]).Pairwise CellsApart
  bound : ∀ x ∈ h :: l ++ [t], 0 < x ∧ x + 8 ≤ 2 ^ 32

namespace Linked

variable {m m' : Mem} {h t p q first last : Nat} {l l₁ l₂ s : List Nat}

theorem cells (hl : Linked m h t l) : Cells (h :: l ++ [t]) := ⟨hl.apart, hl.bound⟩

theorem nodup (hl : Linked m h t l) : (h :: l ++ [t]).Nodup := hl.cells.nodup

/-- A change outside the cells. -/
theorem keep (hl : Linked m h t l) {P : Nat → Prop} (hm : m.SameBut m' P)
    (hP : ∀ x ∈ h :: l ++ [t], ∀ i, i < 8 → ¬ P (x + i)) : Linked m' h t l := by
  refine ⟨hl.links.congr (fun x hx => hm.next (hP x (List.dropLast_subset _ hx)))
    fun x hx => hm.prev (hP x (List.mem_of_mem_tail hx)), ?_, ?_, hl.apart, hl.bound⟩
  · rw [hm.prev (hP h List.mem_cons_self)]
    exact hl.first
  · rw [hm.next (hP t (List.mem_append_right _ List.mem_cons_self))]
    exact hl.last

/-- The cells before and behind a place in the list. -/
theorem joined (hl : Linked m h t (l₁ ++ l₂)) (hp : p ∈ (h :: l₁).getLast?)
    (hq : q ∈ (l₂ ++ [t]).head?) : Joined m p q := by
  have hlinks := hl.links
  rw [← List.cons_append, List.append_assoc] at hlinks
  exact (links_append.mp hlinks).2.2 p hp q hq

theorem mem_before (l₂ : List Nat) (t : Nat) (hp : p ∈ (h :: l₁).getLast?) :
    p ∈ h :: (l₁ ++ l₂) ++ [t] := by
  have := List.mem_of_getLast? hp
  rw [← List.cons_append, List.append_assoc]
  exact List.mem_append_left _ this

theorem mem_behind (h : Nat) (l₁ : List Nat) (hq : q ∈ (l₂ ++ [t]).head?) :
    q ∈ h :: (l₁ ++ l₂) ++ [t] := by
  have := List.mem_of_head? hq
  rw [← List.cons_append, List.append_assoc]
  exact List.mem_append_right _ this

/-- The head is not behind a place, and the tail is not before one. -/
theorem ends_ne (hnodup : (h :: (l₁ ++ l₂) ++ [t]).Nodup) (hp : p ∈ (h :: l₁).getLast?)
    (hq : q ∈ (l₂ ++ [t]).head?) : p ≠ t ∧ q ≠ h := by
  rw [← List.cons_append, List.append_assoc] at hnodup
  have hdis := (List.nodup_append.mp hnodup).2.2
  exact ⟨hdis p (List.mem_of_getLast? hp) t (List.mem_append_right _ (List.mem_singleton_self t)),
    (hdis h List.mem_cons_self q (List.mem_of_head? hq)).symm⟩

/-- Taking the segment `s` out. It stays linked up in itself. -/
theorem cut (hl : Linked m h t (l₁ ++ (s ++ l₂))) (hp : p ∈ (h :: l₁).getLast?)
    (hq : q ∈ (l₂ ++ [t]).head?) :
    Linked (m.unlink p q) h t (l₁ ++ l₂) ∧ Links (m.unlink p q) s ∧
      m.SameBut (m.unlink p q) (InCells (h :: (l₁ ++ l₂) ++ [t])) := by
  have hcells := hl.cells
  have hsub : (h :: (l₁ ++ l₂) ++ [t]).Sublist (h :: (l₁ ++ (s ++ l₂)) ++ [t]) :=
    List.Sublist.append (((List.Sublist.refl l₁).append (List.sublist_append_right s l₂)).cons_cons h)
      (List.Sublist.refl [t])
  have hcells' := hcells.sublist hsub
  have hpC := hsub.subset (mem_before l₂ t hp)
  have hqC := hsub.subset (mem_behind h l₁ hq)
  have hnext := fun y hy => hcells.next_unlink (m := m) (y := y) hpC hqC hy
  have hprev := fun y hy => hcells.prev_unlink (m := m) (y := y) hpC hqC hy
  obtain ⟨hpt, hqh⟩ := ends_ne hcells'.nodup hp hq
  have hshape : h :: (l₁ ++ (s ++ l₂)) ++ [t] = (h :: l₁) ++ (s ++ (l₂ ++ [t])) := by simp
  have hlinks := hl.links
  have hnodup := hl.nodup
  refine ⟨⟨?_, ?_, ?_, hcells'.apart, hcells'.bound⟩, ?_,
    Mem.SameBut.unlink (mem_before l₂ t hp) (mem_behind h l₁ hq)⟩
  · rw [hshape] at hlinks hnodup hnext hprev
    have hshape' : h :: (l₁ ++ l₂) ++ [t] = (h :: l₁) ++ (l₂ ++ [t]) := by simp
    rw [hshape']
    exact (hlinks.cut hnodup hp hq hnext hprev).1
  · rw [hprev h List.mem_cons_self, if_neg hqh]
    exact hl.first
  · rw [hnext t (List.mem_append_right _ List.mem_cons_self), if_neg hpt]
    exact hl.last
  · rw [hshape] at hlinks hnodup hnext hprev
    exact (hlinks.cut hnodup hp hq hnext hprev).2

/-- Putting the segment `s` in, which is linked up in itself. The cells are apart from each
other, so that the four writes can be read back independently. -/
theorem paste (hl : Linked m h t (l₁ ++ l₂)) (hs : Links m s)
    (hcells : Cells (h :: (l₁ ++ (s ++ l₂)) ++ [t])) (hp : p ∈ (h :: l₁).getLast?)
    (hf : first ∈ s.head?) (hz : last ∈ s.getLast?) (hq : q ∈ (l₂ ++ [t]).head?) :
    Linked (m.link p first last q) h t (l₁ ++ (s ++ l₂)) ∧
      m.SameBut (m.link p first last q) (InCells (h :: (l₁ ++ (s ++ l₂)) ++ [t])) := by
  have hsub : (h :: (l₁ ++ l₂) ++ [t]).Sublist (h :: (l₁ ++ (s ++ l₂)) ++ [t]) :=
    List.Sublist.append (((List.Sublist.refl l₁).append (List.sublist_append_right s l₂)).cons_cons h)
      (List.Sublist.refl [t])
  have hshape : h :: (l₁ ++ (s ++ l₂)) ++ [t] = (h :: l₁) ++ (s ++ (l₂ ++ [t])) := by simp
  have hin : ∀ x ∈ s, x ∈ h :: (l₁ ++ (s ++ l₂)) ++ [t] := by
    intro x hx
    rw [hshape]
    exact List.mem_append_right _ (List.mem_append_left _ hx)
  have hpC := hsub.subset (mem_before l₂ t hp)
  have hqC := hsub.subset (mem_behind h l₁ hq)
  have hfs := List.mem_of_head? hf
  have hzs := List.mem_of_getLast? hz
  have hnext := fun y hy => hcells.next_link (m := m) (y := y) hpC (hin _ hfs) (hin _ hzs) hqC hy
  have hprev := fun y hy => hcells.prev_link (m := m) (y := y) hpC (hin _ hfs) (hin _ hzs) hqC hy
  obtain ⟨hpt, hqh⟩ := ends_ne hl.nodup hp hq
  have hnodup := hcells.nodup
  refine ⟨⟨?_, ?_, ?_, hcells.apart, hcells.bound⟩,
    Mem.SameBut.link hpC (hin _ hfs) (hin _ hzs) hqC⟩
  · have hlinks := hl.links
    have hshape' : h :: (l₁ ++ l₂) ++ [t] = (h :: l₁) ++ (l₂ ++ [t]) := by simp
    rw [hshape'] at hlinks
    rw [hshape] at hnodup hnext hprev ⊢
    obtain ⟨hA, hB, -⟩ := links_append.mp hlinks
    exact hA.paste hs hB hnodup hp hf hz hq hnext hprev
  · rw [hshape] at hnodup
    have hne := (List.nodup_append.mp hnodup).2.2 h List.mem_cons_self first
      (List.mem_append_left _ hfs)
    rw [hprev h List.mem_cons_self, if_neg hqh, if_neg hne.symm]
    exact hl.first
  · rw [hshape] at hnodup
    have hne := (List.nodup_append.mp (List.nodup_append.mp hnodup).2.1).2.2 last hzs t
      (List.mem_append_right _ (List.mem_singleton_self t))
    rw [hnext t (List.mem_append_right _ List.mem_cons_self), if_neg hpt, if_neg hne]
    exact hl.last

end Linked

end OsTools

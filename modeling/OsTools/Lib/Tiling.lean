import Mathlib.Data.List.Basic
/-!
# OsTools.Lib.Tiling

Lists of segments that tile an interval: each one starts where the one before
ends. `start` and `len` tell where a segment begins and how long it is.

A heap of blocks tiles its memory, and allocation and freeing are a split and a merge of
segments: they replace a part of the list by another tiling of the same interval
(`tiles_middle`). That blocks do not overlap is then a consequence of the tiling and not an
invariant of its own.
-/

namespace OsTools

variable {β : Type*} (start len : β → Nat)

/-- `bs` covers the addresses from `a` up to `e` without gap or overlap. -/
def Tiles : List β → Nat → Nat → Prop
  | [], a, e => a = e
  | b :: bs, a, e => start b = a ∧ Tiles bs (start b + len b) e

variable {start len}

theorem tiles_append {xs ys : List β} {a e : Nat} :
    Tiles start len (xs ++ ys) a e ↔ ∃ m, Tiles start len xs a m ∧ Tiles start len ys m e := by
  induction xs generalizing a with
  | nil => simp [Tiles]
  | cons x xs ih =>
      simp only [List.cons_append, Tiles, ih]
      constructor
      · rintro ⟨ha, m, hxs, hys⟩
        exact ⟨m, ⟨ha, hxs⟩, hys⟩
      · rintro ⟨m, ⟨ha, hxs⟩, hys⟩
        exact ⟨ha, m, hxs, hys⟩

/-- A tiling around one of its segments. -/
theorem tiles_middle {xs ys : List β} {b : β} {a e : Nat} :
    Tiles start len (xs ++ b :: ys) a e ↔
      Tiles start len xs a (start b) ∧ Tiles start len ys (start b + len b) e := by
  rw [tiles_append]
  constructor
  · rintro ⟨m, hxs, hb, hys⟩
    rw [hb]
    exact ⟨hxs, hb ▸ hys⟩
  · rintro ⟨hxs, hys⟩
    exact ⟨start b, hxs, rfl, hys⟩

namespace Tiles

variable {bs : List β} {a e : Nat}

theorem le (h : Tiles start len bs a e) : a ≤ e := by
  induction bs generalizing a with
  | nil => exact Nat.le_of_eq h
  | cons b bs ih =>
      obtain ⟨ha, hbs⟩ := h
      have := ih hbs
      omega

/-- Every segment lies within the interval. -/
theorem bounds (h : Tiles start len bs a e) {b : β} (hb : b ∈ bs) :
    a ≤ start b ∧ start b + len b ≤ e := by
  obtain ⟨xs, ys, rfl⟩ := List.append_of_mem hb
  obtain ⟨hxs, hys⟩ := tiles_middle.mp h
  exact ⟨hxs.le, hys.le⟩

/-- Segments follow each other in increasing order. -/
theorem pairwise (h : Tiles start len bs a e) :
    bs.Pairwise fun b c => start b + len b ≤ start c := by
  induction bs generalizing a with
  | nil => exact List.Pairwise.nil
  | cons b bs ih =>
      obtain ⟨-, hbs⟩ := h
      exact List.pairwise_cons.mpr ⟨fun c hc => (bounds hbs hc).1, ih hbs⟩

/-- Two segments are in order, or the same. -/
theorem trichotomy (h : Tiles start len bs a e) {b c : β} (hb : b ∈ bs) (hc : c ∈ bs) :
    b = c ∨ start b + len b ≤ start c ∨ start c + len c ≤ start b := by
  have hpair := h.pairwise
  obtain ⟨xs, ys, rfl⟩ := List.append_of_mem hb
  rw [List.pairwise_append, List.pairwise_cons] at hpair
  rcases List.mem_append.mp hc with hc | hc
  · exact Or.inr (Or.inr (hpair.2.2 c hc b List.mem_cons_self))
  · rcases List.mem_cons.mp hc with rfl | hc
    · exact Or.inl rfl
    · exact Or.inr (Or.inl (hpair.2.1.1 c hc))

end Tiles

end OsTools

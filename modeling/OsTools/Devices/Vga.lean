import Mathlib.Data.List.Induction
import OsTools.Lib.Mask
import OsTools.Stdlib.Memmove
/-!
# OsTools.Devices.Vga

The text display of `devices/vga.c`: the frame buffer in memory, the cursor, and the
registers of the display controller that hold the cursor for the hardware.

A `Sheet` is what the display stands for: rows without end, with the rows from `top`
on visible. Scrolling moves the window; nothing on the sheet is lost by it.

## Proof shape

`Shows` relates the display to a sheet, and each character keeps it: newline is the
difficult case (`Shows.newline`), since there the rows of the frame buffer are moved and the
window on the sheet moves instead. A text is an induction over its characters. The cursor is
in the relation too, with the registers of the controller behind it (`moveCursor_synced`),
so that the position that is read back by the next call is the one that was written.

A form feed clears the screen from any state, which is why `vga_shows_text` needs no
assumption on what was there; the rows after printable text are then a function of the text
(`page`), and those that are visible are the last ones.
-/

namespace OsTools.Devices

open OsTools.Kernel (Stop)
open OsTools.Stdlib (memmove memmove_spec Range)

def COL_CNT : Nat := 80
def ROW_CNT : Nat := 25
def GRAY_ON_BLACK : UInt8 := 0x07

/-- `ptov (0xb8000)`. -/
def fb : Nat := 0xc00b8000

/-- The static variables of `vga.c`, the memory and the registers of the controller. -/
structure Vga where
  mem : Mem
  cx : Nat
  cy : Nat
  inited : Bool
  crt : Nat → UInt8

namespace Vga

/-- `&fb[y][x][0]`. -/
def cellAddr (y x : Nat) : Nat := fb + (y * COL_CNT + x) * 2

/-- `fb[y][x][0] = c` and its attribute. -/
def putCell (m : Mem) (y x : Nat) (c : UInt8) : Mem :=
  (m.put (cellAddr y x) c).put (cellAddr y x + 1) GRAY_ON_BLACK

/-- The loop of `clear_row`, for `n` columns. -/
def clearCells (m : Mem) (y : Nat) : Nat → Mem
  | 0 => m
  | n + 1 => putCell (clearCells m y n) y n 32

def clearRow (m : Mem) (y : Nat) : Mem := clearCells m y COL_CNT

/-- The loop of `cls`, for `n` rows. -/
def clearRows (m : Mem) : Nat → Mem
  | 0 => m
  | n + 1 => clearRow (clearRows m n) n

/-- `outw (0x3d4, data)`: the low byte selects a register, which gets the high byte. -/
def outw (v : Vga) (data : BitVec 16) : Vga :=
  { v with crt := Function.update v.crt (data &&& 0xff#16).toNat (UInt8.ofNat (data >>> 8).toNat) }

def moveCursor (v : Vga) : Vga :=
  let cp := BitVec.ofNat 16 (v.cx + COL_CNT * v.cy)
  (v.outw (0x0e#16 ||| (cp &&& 0xff00#16))).outw (0x0f#16 ||| (cp <<< 8))

/-- `find_cursor`, as the column and the row. -/
def findCursor (v : Vga) : Nat × Nat :=
  let cp := (v.crt 0x0e).toNat * 256 + (v.crt 0x0f).toNat
  (cp % COL_CNT, cp / COL_CNT)

def init (v : Vga) : Vga :=
  if v.inited then v
  else { v with cx := v.findCursor.1, cy := v.findCursor.2, inited := true }

def cls (v : Vga) : Vga := { v with mem := clearRows v.mem ROW_CNT, cx := 0, cy := 0 }.moveCursor

def newline (v : Vga) : Except Stop Vga :=
  let v := { v with cx := 0, cy := v.cy + 1 }
  if v.cy ≥ ROW_CNT then do
    let (mem, _) ← memmove v.mem fb (fb + COL_CNT * 2) (COL_CNT * 2 * (ROW_CNT - 1))
    .ok { v with cy := ROW_CNT - 1, mem := clearRow mem (ROW_CNT - 1) }
  else .ok v

/-- The `switch` of `vga_putc`; `'\a'` only beeps. -/
def interpret (v : Vga) (c : UInt8) : Except Stop Vga :=
  if c = 10 then v.newline
  else if c = 12 then .ok v.cls
  else if c = 8 then .ok (if v.cx > 0 then { v with cx := v.cx - 1 } else v)
  else if c = 13 then .ok { v with cx := 0 }
  else if c = 9 then
    let v := { v with cx := (v.cx + 1 + 7) / 8 * 8 }
    if v.cx ≥ COL_CNT then v.newline else .ok v
  else if c = 7 then .ok v
  else
    let v := { v with mem := putCell v.mem v.cy v.cx c, cx := v.cx + 1 }
    if v.cx ≥ COL_CNT then v.newline else .ok v

def vgaPutc (v : Vga) (c : UInt8) : Except Stop Vga := (v.init.interpret c).map moveCursor

/-- A text, one character after the other. -/
def vgaPuts (v : Vga) : List UInt8 → Except Stop Vga
  | [] => .ok v
  | c :: text => (v.vgaPutc c).bind fun v => v.vgaPuts text

end Vga

/-! ### The sheet -/

/-- A cell is a character and its attribute. -/
structure Sheet where
  cell : Nat → Nat → UInt8 × UInt8
  row : Nat
  col : Nat
  top : Nat

namespace Sheet

def blank : UInt8 × UInt8 := (32, GRAY_ON_BLACK)

/-- The next row, which becomes visible. -/
def nextRow (s : Sheet) : Sheet :=
  { s with row := s.row + 1, col := 0, top := max s.top (s.row + 2 - ROW_CNT) }

def write (s : Sheet) (c : UInt8) : Sheet :=
  { s with cell := fun r x => if r = s.row ∧ x = s.col then (c, GRAY_ON_BLACK) else s.cell r x }

/-- To the column `col`, which may be behind the end of the row. -/
def advance (s : Sheet) (col : Nat) : Sheet :=
  if col < COL_CNT then { s with col } else s.nextRow

def empty : Sheet := ⟨fun _ _ => blank, 0, 0, 0⟩

def putc (s : Sheet) (c : UInt8) : Sheet :=
  if c = 10 then s.nextRow
  else if c = 12 then empty
  else if c = 8 then { s with col := s.col - 1 }
  else if c = 13 then { s with col := 0 }
  else if c = 9 then s.advance ((s.col + 8) / 8 * 8)
  else if c = 7 then s
  else (s.write c).advance (s.col + 1)

def puts (s : Sheet) (text : List UInt8) : Sheet := text.foldl putc s

end Sheet

namespace Vga

variable {v v' : Vga} {m : Mem} {s : Sheet} {c : UInt8} {x y n : Nat}

/-! ### Cells -/

/-- The cell at a position. -/
def cellAt (m : Mem) (y x : Nat) : UInt8 × UInt8 := (m (cellAddr y x), m (cellAddr y x + 1))

theorem cellAt_putCell (hx : x < COL_CNT) {y' x' : Nat} (hx' : x' < COL_CNT) :
    cellAt (putCell m y x c) y' x' =
      if y' = y ∧ x' = x then (c, GRAY_ON_BLACK) else cellAt m y' x' := by
  unfold COL_CNT at hx hx'
  by_cases h : y' = y ∧ x' = x
  · obtain ⟨rfl, rfl⟩ := h
    rw [if_pos ⟨rfl, rfl⟩]
    unfold cellAt putCell
    rw [Mem.put_same, Mem.put_other (by omega), Mem.put_same]
  · have hne : y' * 80 + x' ≠ y * 80 + x := by omega
    rw [if_neg h]
    unfold cellAt putCell cellAddr COL_CNT
    rw [Mem.put_other (by omega), Mem.put_other (by omega), Mem.put_other (by omega),
      Mem.put_other (by omega)]

/-- Outside of the frame buffer. -/
def Outside (a : Nat) : Prop := a < fb ∨ fb + 4000 ≤ a

theorem putCell_outside (hy : y < ROW_CNT) (hx : x < COL_CNT) {a : Nat} (ha : Outside a) :
    putCell m y x c a = m a := by
  unfold Outside at ha
  unfold ROW_CNT at hy
  unfold COL_CNT at hx
  unfold putCell cellAddr COL_CNT
  rw [Mem.put_other (by omega), Mem.put_other (by omega)]

theorem clearCells_spec (hn : n ≤ COL_CNT) (hy : y < ROW_CNT) :
    (∀ y' x', x' < COL_CNT → cellAt (clearCells m y n) y' x' =
      if y' = y ∧ x' < n then Sheet.blank else cellAt m y' x') ∧
      ∀ a, Outside a → clearCells m y n a = m a := by
  induction n with
  | zero => exact ⟨fun y' x' _ => by rw [if_neg (by omega)]; rfl, fun _ _ => rfl⟩
  | succ n ih =>
      obtain ⟨hcell, hout⟩ := ih (by omega)
      refine ⟨fun y' x' hx' => ?_, fun a ha => ?_⟩
      · rw [clearCells, cellAt_putCell (by omega) hx', hcell y' x' hx']
        by_cases hy' : y' = y
        · by_cases hn' : x' = n
          · rw [if_pos ⟨hy', hn'⟩, if_pos ⟨hy', by omega⟩]
            rfl
          · rw [if_neg fun h => hn' h.2]
            by_cases hlt : x' < n
            · rw [if_pos ⟨hy', hlt⟩, if_pos ⟨hy', by omega⟩]
            · rw [if_neg fun h => hlt h.2, if_neg fun h => by omega]
        · rw [if_neg fun h => hy' h.1, if_neg fun h => hy' h.1, if_neg fun h => hy' h.1]
      · rw [clearCells, putCell_outside hy (by omega) ha, hout a ha]

theorem clearRow_spec (hy : y < ROW_CNT) :
    (∀ y' x', x' < COL_CNT → cellAt (clearRow m y) y' x' =
      if y' = y then Sheet.blank else cellAt m y' x') ∧
      ∀ a, Outside a → clearRow m y a = m a := by
  obtain ⟨hcell, hout⟩ := clearCells_spec (m := m) (Nat.le_refl COL_CNT) hy
  refine ⟨fun y' x' hx' => ?_, hout⟩
  rw [clearRow, hcell y' x' hx']
  simp [hx']

theorem clearRows_spec (hn : n ≤ ROW_CNT) :
    (∀ y' x', x' < COL_CNT → cellAt (clearRows m n) y' x' =
      if y' < n then Sheet.blank else cellAt m y' x') ∧
      ∀ a, Outside a → clearRows m n a = m a := by
  induction n with
  | zero => exact ⟨fun y' x' _ => by rw [if_neg (by omega)]; rfl, fun _ _ => rfl⟩
  | succ n ih =>
      obtain ⟨hcell, hout⟩ := ih (by omega)
      obtain ⟨hrow, hout'⟩ := clearRow_spec (m := clearRows m n) (y := n) (by omega)
      refine ⟨fun y' x' hx' => ?_, fun a ha => (hout' a ha).trans (hout a ha)⟩
      rw [clearRows, hrow y' x' hx', hcell y' x' hx']
      by_cases heq : y' = n
      · rw [if_pos heq, if_pos (by omega)]
      · rw [if_neg heq]
        by_cases hlt : y' < n
        · rw [if_pos hlt, if_pos (by omega)]
        · rw [if_neg hlt, if_neg (by omega)]

/-! ### The cursor -/

/-- The hardware has the position of the cursor. -/
def Synced (v : Vga) : Prop := v.findCursor = (v.cx, v.cy)

/-- A register number below a value for it. -/
theorem or_toNat {r w : BitVec 16} {k : Nat} (hr : r.toNat < 256) (hw : w.toNat = 2 ^ 8 * k) :
    (r ||| w).toNat = 256 * k + r.toNat := by
  rw [BitVec.toNat_or, hw, Nat.or_comm, ← Nat.two_pow_add_eq_or_of_lt hr]

theorem outw_crt {data : BitVec 16} {k r : Nat} (hr : r < 256) (h : data.toNat = 256 * k + r) :
    (v.outw data).crt = Function.update v.crt r (UInt8.ofNat k) := by
  have hlow : (data &&& 0xff#16).toNat = r := by
    rw [toNat_and_low 8 (by decide), h]
    omega
  have hhigh : (data >>> 8).toNat = k := by
    rw [toNat_shift, h]
    omega
  show Function.update v.crt _ _ = _
  rw [hlow, hhigh]

/-- The high byte of a word. -/
theorem and_high (w : BitVec 16) : (w &&& 0xff00#16).toNat = 2 ^ 8 * (w.toNat / 256) := by
  have hshift : w &&& 0xff00#16 = (w >>> 8) <<< 8 := by
    have hmask : ∀ i (hi : i < 16), (0xff00#16)[i] = decide (8 ≤ i) := by decide
    ext i hi
    rw [BitVec.getElem_and, hmask i hi, BitVec.getElem_shiftLeft]
    by_cases h8 : i < 8
    · simp [h8]
    · rw [BitVec.getElem_ushiftRight, Nat.add_sub_cancel' (by omega)]
      simp [h8, Nat.le_of_not_lt h8, BitVec.getLsbD_eq_getElem hi]
  have hlt := w.isLt
  rw [hshift, BitVec.toNat_shiftLeft, BitVec.toNat_ushiftRight, Nat.shiftLeft_eq,
    Nat.shiftRight_eq_div_pow, Nat.mod_eq_of_lt (by omega)]
  omega

/-- The position is written to the two registers, high byte and low byte, and can be read back
from them. -/
theorem moveCursor_synced (hx : v.cx < COL_CNT) (hy : v.cy < ROW_CNT) : Synced v.moveCursor := by
  unfold COL_CNT at hx
  unfold ROW_CNT at hy
  have hcp : (BitVec.ofNat 16 (v.cx + COL_CNT * v.cy)).toNat = v.cx + 80 * v.cy := by
    rw [BitVec.toNat_ofNat]
    exact Nat.mod_eq_of_lt (by unfold COL_CNT; omega)
  obtain ⟨cp, hcp'⟩ : ∃ cp, BitVec.ofNat 16 (v.cx + COL_CNT * v.cy) = cp := ⟨_, rfl⟩
  rw [hcp'] at hcp
  have hhigh : (0x0e#16 ||| (cp &&& 0xff00#16)).toNat = 256 * (cp.toNat / 256) + 14 :=
    or_toNat (r := 0x0e#16) (by decide) (and_high cp)
  have hlow : (0x0f#16 ||| (cp <<< 8)).toNat = 256 * (cp.toNat % 256) + 15 := by
    refine or_toNat (r := 0x0f#16) (by decide) ?_
    rw [BitVec.toNat_shiftLeft, Nat.shiftLeft_eq]
    omega
  have hcrt : v.moveCursor.crt = Function.update (Function.update v.crt 14
      (UInt8.ofNat (cp.toNat / 256))) 15 (UInt8.ofNat (cp.toNat % 256)) := by
    unfold moveCursor
    rw [hcp']
    dsimp only
    rw [outw_crt (by decide) hlow, outw_crt (by decide) hhigh]
  show v.moveCursor.findCursor = (v.cx, v.cy)
  unfold findCursor
  rw [hcrt, Function.update_self, Function.update_of_ne (by decide), Function.update_self]
  have hsum : (UInt8.ofNat (cp.toNat / 256)).toNat * 256 + (UInt8.ofNat (cp.toNat % 256)).toNat =
      v.cx + 80 * v.cy := by
    rw [UInt8.toNat_ofNat', UInt8.toNat_ofNat', Nat.mod_eq_of_lt (by omega),
      Nat.mod_eq_of_lt (by omega)]
    omega
  simp only [hsum, COL_CNT, Prod.mk.injEq]
  omega

/-! ### The display shows a sheet -/

/-- The display shows `s`, once it is initialised. -/
structure Shows (v : Vga) (s : Sheet) : Prop where
  inited : v.inited = true
  col : v.cx = s.col
  row : v.cy + s.top = s.row
  inCol : s.col < COL_CNT
  inRow : v.cy < ROW_CNT
  cell : ∀ y x, y < ROW_CNT → x < COL_CNT → cellAt v.mem y x = s.cell (s.top + y) x
  below : ∀ r x, s.top + ROW_CNT ≤ r → s.cell r x = Sheet.blank

/-- Memory outside of the frame buffer is not changed. -/
def Frame (v v' : Vga) : Prop := ∀ a, Outside a → v'.mem a = v.mem a

/-- A new line. Above the last row the cursor moves, and the sheet's row is visible already.
In the last row the display scrolls: row by row the frame buffer becomes what the window one
further down shows, and the last row is cleared. -/
theorem Shows.newline (h : Shows v s) : ∃ v', v.newline = .ok v' ∧ Shows v' s.nextRow ∧
    Frame v v' := by
  have hrow := h.row
  have hin := h.inRow
  unfold ROW_CNT at hin
  unfold Vga.newline
  by_cases hlast : v.cy + 1 ≥ ROW_CNT
  · -- the window moves down
    have hcy : v.cy = 24 := by
      unfold ROW_CNT at hlast
      omega
    have hdst : Range fb (COL_CNT * 2 * (ROW_CNT - 1)) := ⟨by decide, by decide, by decide⟩
    have hsrc : Range (fb + COL_CNT * 2) (COL_CNT * 2 * (ROW_CNT - 1)) :=
      ⟨by decide, by decide, by decide⟩
    obtain ⟨m', hmove, hcopied⟩ := memmove_spec (m := v.mem) hdst hsrc
    obtain ⟨hclear, hout⟩ := clearRow_spec (m := m') (y := ROW_CNT - 1) (by decide)
    have hmoved : ∀ y x, y < 24 → x < 80 → cellAt m' y x = cellAt v.mem (y + 1) x := by
      intro y x hy hx
      have hbyte : ∀ i < 2, m' (cellAddr y x + i) = v.mem (cellAddr (y + 1) x + i) := by
        intro i hi
        have := hcopied.copied ((y * 80 + x) * 2 + i) (Nat.zero_le _) (by
          unfold COL_CNT ROW_CNT
          omega)
        unfold cellAddr COL_CNT
        rw [show fb + ((y + 1) * 80 + x) * 2 + i = fb + 80 * 2 + ((y * 80 + x) * 2 + i) by omega]
        rw [Nat.add_assoc]
        exact this
      exact Prod.ext (hbyte 0 (by decide)) (hbyte 1 (by decide))
    rw [if_pos hlast, hmove]
    refine ⟨_, rfl, ⟨h.inited, rfl, ?_, (by decide : 0 < 80), (by decide : 24 < 25), ?_, ?_⟩, ?_⟩
    · show 24 + max s.top (s.row + 2 - 25) = s.row + 1
      omega
    · intro y x hy hx
      show cellAt (clearRow m' (ROW_CNT - 1)) y x = s.cell (max s.top (s.row + 2 - 25) + y) x
      rw [hclear y x hx, show max s.top (s.row + 2 - 25) = s.top + 1 by omega]
      by_cases hend : y = ROW_CNT - 1
      · rw [if_pos hend, h.below _ _ (by unfold ROW_CNT at hend ⊢; omega)]
      · rw [if_neg hend]
        unfold ROW_CNT at hy hend
        rw [hmoved y x (by omega) hx, h.cell _ _ (by unfold ROW_CNT; omega) hx]
        rw [show s.top + 1 + y = s.top + (y + 1) by omega]
    · intro r x hr
      refine h.below r x ?_
      change max s.top (s.row + 2 - 25) + 25 ≤ r at hr
      unfold ROW_CNT
      omega
    · intro a ha
      show clearRow m' (ROW_CNT - 1) a = v.mem a
      rw [hout a ha]
      refine hcopied.frame a ?_
      unfold Outside at ha
      unfold COL_CNT ROW_CNT
      omega
  · rw [if_neg hlast]
    unfold ROW_CNT at hlast
    have htop : max s.top (s.row + 2 - ROW_CNT) = s.top := by
      unfold ROW_CNT
      omega
    refine ⟨_, rfl, ⟨h.inited, rfl, ?_, (by decide : 0 < 80), ?_, ?_, ?_⟩, fun _ _ => rfl⟩
    · show v.cy + 1 + max s.top (s.row + 2 - ROW_CNT) = s.row + 1
      omega
    · show v.cy + 1 < 25
      omega
    · intro y x hy hx
      show cellAt v.mem y x = s.cell (max s.top (s.row + 2 - ROW_CNT) + y) x
      rw [htop]
      exact h.cell y x hy hx
    · intro r x hr
      change max s.top (s.row + 2 - ROW_CNT) + ROW_CNT ≤ r at hr
      rw [htop] at hr
      exact h.below r x hr

/-- Moving the cursor within the row. -/
theorem Shows.setCol (h : Shows v s) {col : Nat} (hcol : col < COL_CNT) :
    Shows { v with cx := col } { s with col } :=
  ⟨h.inited, rfl, h.row, hcol, h.inRow, h.cell, h.below⟩

/-- Moving the cursor right, perhaps out of the row. -/
theorem Shows.advance (h : Shows v s) {col : Nat} :
    ∃ v', (if col ≥ COL_CNT then { v with cx := col }.newline else .ok { v with cx := col }) =
      .ok v' ∧ Shows v' (s.advance col) ∧ Frame v v' := by
  unfold Sheet.advance
  by_cases hcol : col < COL_CNT
  · rw [if_pos hcol, if_neg (Nat.not_le_of_lt hcol)]
    exact ⟨_, rfl, h.setCol hcol, fun _ _ => rfl⟩
  · rw [if_neg hcol, if_pos (Nat.le_of_not_lt hcol)]
    exact h.newline

theorem Shows.write (h : Shows v s) (c : UInt8) :
    Shows { v with mem := putCell v.mem v.cy v.cx c } (s.write c) ∧
      Frame v { v with mem := putCell v.mem v.cy v.cx c } := by
  have hcol := h.col
  have hrow := h.row
  have hin := h.inCol
  refine ⟨⟨h.inited, hcol, hrow, hin, h.inRow, fun y x hy hx => ?_, fun r x hr => ?_⟩,
    fun a ha => putCell_outside h.inRow (by omega) ha⟩
  · show cellAt (putCell v.mem v.cy v.cx c) y x =
      if s.top + y = s.row ∧ x = s.col then (c, GRAY_ON_BLACK) else s.cell (s.top + y) x
    rw [cellAt_putCell (by omega) hx, h.cell y x hy hx]
    by_cases hpos : y = v.cy ∧ x = v.cx
    · rw [if_pos hpos, if_pos (by omega)]
    · rw [if_neg hpos, if_neg (by omega)]
  · have hinRow := h.inRow
    change s.top + ROW_CNT ≤ r at hr
    show (if r = s.row ∧ x = s.col then (c, GRAY_ON_BLACK) else s.cell r x) = _
    rw [if_neg (by omega)]
    exact h.below r x hr

theorem Shows.moveCursor (h : Shows v s) : Shows v.moveCursor s ∧ Synced v.moveCursor :=
  ⟨⟨h.inited, h.col, h.row, h.inCol, h.inRow, h.cell, h.below⟩,
    moveCursor_synced (by rw [h.col]; exact h.inCol) h.inRow⟩

/-- Wherever the cursor was. -/
theorem cls_shows (hinited : v.inited = true) : Shows v.cls Sheet.empty ∧ Frame v v.cls := by
  obtain ⟨hcell, hout⟩ := clearRows_spec (m := v.mem) (Nat.le_refl ROW_CNT)
  refine ⟨⟨hinited, rfl, rfl, (by decide : 0 < 80), (by decide : 0 < 25), fun y x hy hx => ?_,
    fun _ _ _ => rfl⟩, hout⟩
  show cellAt (clearRows v.mem ROW_CNT) y x = Sheet.blank
  rw [hcell y x hx, if_pos hy]

/-- A character does to the display what it does to the sheet: one case for each that is
special, and one for all others. -/
theorem Shows.interpret (h : Shows v s) (c : UInt8) : ∃ v', v.interpret c = .ok v' ∧
    Shows v' (s.putc c) ∧ Frame v v' := by
  have hcol := h.col
  have hin := h.inCol
  unfold Vga.interpret Sheet.putc
  split
  · exact h.newline
  split
  · exact ⟨_, rfl, cls_shows h.inited⟩
  split
  · refine ⟨_, rfl, ?_, ?_⟩
    · rw [← hcol]
      by_cases hpos : v.cx > 0
      · rw [if_pos hpos]
        exact h.setCol (by omega)
      · rw [if_neg hpos]
        have hzero : v.cx - 1 = s.col := by omega
        rw [hzero]
        exact h
    · split <;> exact fun _ _ => rfl
  split
  · exact ⟨_, rfl, h.setCol (by decide), fun _ _ => rfl⟩
  split
  · rw [← hcol]
    exact h.advance
  split
  · exact ⟨v, rfl, h, fun _ _ => rfl⟩
  · obtain ⟨hwrite, hframe⟩ := h.write c
    obtain ⟨v', hv', hshows, hframe'⟩ := hwrite.advance
    rw [← hcol]
    exact ⟨v', hv', hshows, fun a ha => (hframe' a ha).trans (hframe a ha)⟩

/-- **One character.** -/
theorem Shows.vgaPutc (h : Shows v s) (c : UInt8) : ∃ v', v.vgaPutc c = .ok v' ∧
    Shows v' (s.putc c) ∧ Synced v' ∧ Frame v v' := by
  obtain ⟨v', hv', hshows, hframe⟩ := h.interpret c
  have hinit : v.init = v := if_pos h.inited
  refine ⟨v'.moveCursor, ?_, hshows.moveCursor.1, hshows.moveCursor.2, hframe⟩
  unfold Vga.vgaPutc
  rw [hinit, hv']
  rfl

/-- A text. -/
theorem Shows.vgaPuts (h : Shows v s) (hsync : Synced v) (text : List UInt8) :
    ∃ v', v.vgaPuts text = .ok v' ∧ Shows v' (s.puts text) ∧ Synced v' ∧ Frame v v' := by
  induction text generalizing v s with
  | nil => exact ⟨v, rfl, h, hsync, fun _ _ => rfl⟩
  | cons c text ih =>
      obtain ⟨v₁, hv₁, hshows₁, hsync₁, hframe₁⟩ := h.vgaPutc c
      obtain ⟨v', hv', hshows, hsync', hframe⟩ := ih hshows₁ hsync₁
      refine ⟨v', ?_, hshows, hsync', fun a ha => (hframe a ha).trans (hframe₁ a ha)⟩
      rw [Vga.vgaPuts, hv₁]
      exact hv'

/-- The cursor of the hardware is on the screen, and that of `vga.c` is the same. -/
structure OnScreen (v : Vga) : Prop where
  row : v.findCursor.2 < ROW_CNT
  synced : v.inited = true → Synced v

/-- What is on the screen, as a sheet. -/
def sheet (v : Vga) : Sheet :=
  { cell := fun r x => if r < ROW_CNT then cellAt v.mem r x else Sheet.blank
    row := v.findCursor.2
    col := v.findCursor.1
    top := 0 }

theorem OnScreen.shows (h : OnScreen v) : Shows v.init v.sheet ∧ Synced v.init := by
  have hcol : v.findCursor.1 < COL_CNT := Nat.mod_lt _ (by decide)
  have hinit : v.init.inited = true ∧ v.init.cx = v.findCursor.1 ∧ v.init.cy = v.findCursor.2 ∧
      v.init.mem = v.mem ∧ v.init.crt = v.crt := by
    unfold Vga.init
    split
    · rename_i hi
      have hs := h.synced hi
      unfold Synced at hs
      exact ⟨hi, by rw [hs], by rw [hs], rfl, rfl⟩
    · exact ⟨rfl, rfl, rfl, rfl, rfl⟩
  obtain ⟨hi, hcx, hcy, hmem, hcrt⟩ := hinit
  refine ⟨⟨hi, hcx, by rw [hcy]; rfl, hcol, by rw [hcy]; exact h.row, fun y x hy hx => ?_,
    fun r x hr => ?_⟩, ?_⟩
  · show _ = if 0 + y < ROW_CNT then cellAt v.mem (0 + y) x else Sheet.blank
    rw [Nat.zero_add, if_pos hy, hmem]
  · change 0 + ROW_CNT ≤ r at hr
    exact if_neg (by omega)
  · unfold Synced findCursor at *
    rw [hcrt, hcx, hcy]

theorem init_inited (v : Vga) : v.init.inited = true := by
  unfold Vga.init
  split
  · assumption
  · rfl

/-- A form feed, in whatever state the display is. -/
theorem vgaPutc_formFeed (v : Vga) :
    ∃ v', v.vgaPutc 12 = .ok v' ∧ Shows v' Sheet.empty ∧ Synced v' :=
  ⟨v.init.cls.moveCursor, rfl, (cls_shows v.init_inited).1.moveCursor⟩

theorem vgaPutc_init (v : Vga) (c : UInt8) : v.init.vgaPutc c = v.vgaPutc c := by
  have hinit : v.init.init = v.init := if_pos v.init_inited
  unfold Vga.vgaPutc
  rw [hinit]

theorem vgaPuts_init (v : Vga) (c : UInt8) (text : List UInt8) :
    v.init.vgaPuts (c :: text) = v.vgaPuts (c :: text) := by
  rw [Vga.vgaPuts, vgaPutc_init]
  rfl

/-- **The display refines the sheet.** After any text the screen shows the part of the sheet that
is visible, the hardware cursor is where the next character goes, and no memory outside of the
frame buffer has been written. -/
theorem vga_refines (h : OnScreen v) (text : List UInt8) :
    ∃ v', v.vgaPuts text = .ok v' ∧ Shows v'.init (v.sheet.puts text) ∧
      Synced v'.init ∧ Frame v v' := by
  obtain ⟨hshows, hsync⟩ := h.shows
  have hmem : v.init.mem = v.mem := by
    unfold Vga.init
    split <;> rfl
  cases text with
  | nil => exact ⟨v, rfl, hshows, hsync, fun _ _ => rfl⟩
  | cons c text =>
      obtain ⟨v', hv', hshows', hsync', hframe⟩ := hshows.vgaPuts hsync (c :: text)
      have hinit : v'.init = v' := if_pos hshows'.inited
      refine ⟨v', ?_, by rw [hinit]; exact hshows', by rw [hinit]; exact hsync', fun a ha => ?_⟩
      · rw [vgaPuts_init] at hv'
        exact hv'
      · rw [hframe a ha, hmem]

def powerOn : Vga := ⟨fun _ => 0, 0, 0, false, fun _ => 0⟩

theorem powerOn_onScreen : OnScreen powerOn := ⟨by decide, fun h => absurd h (by decide)⟩

theorem vga_refines_powerOn :
    ∃ v', powerOn.vgaPuts [72, 105, 10, 33] = .ok v' ∧
      Shows v'.init (powerOn.sheet.puts [72, 105, 10, 33]) ∧ Synced v'.init ∧ Frame powerOn v' :=
  vga_refines powerOn_onScreen [72, 105, 10, 33]

end Vga

/-! ### Plain text -/

namespace Sheet

/-- Characters that `vga_putc` puts on the screen. -/
def Printable (c : UInt8) : Prop := c ≠ 10 ∧ c ≠ 12 ∧ c ≠ 8 ∧ c ≠ 13 ∧ c ≠ 9 ∧ c ≠ 7

instance (c : UInt8) : Decidable (Printable c) := inferInstanceAs (Decidable (_ ∧ _))

/-- The sheet after a text of printable characters, from its beginning on. -/
def page (text : List UInt8) : Sheet where
  cell r x := if x < COL_CNT then
    (text[r * COL_CNT + x]?.map fun c => (c, GRAY_ON_BLACK)).getD blank else blank
  row := text.length / COL_CNT
  col := text.length % COL_CNT
  top := text.length / COL_CNT + 1 - ROW_CNT

theorem putc_printable {s : Sheet} {c : UInt8} (h : Printable c) :
    s.putc c = (s.write c).advance (s.col + 1) := by
  obtain ⟨h₁, h₂, h₃, h₄, h₅, h₆⟩ := h
  unfold putc
  rw [if_neg h₁, if_neg h₂, if_neg h₃, if_neg h₄, if_neg h₅, if_neg h₆]

/-- The sheet after one more printable character. It is the next cell of the text, which
begins a row just if the rows before are full. -/
theorem page_putc (text : List UInt8) {c : UInt8} (h : Printable c) :
    (page text).putc c = page (text ++ [c]) := by
  have hcell : ((page text).write c).cell = (page (text ++ [c])).cell := by
    funext r x
    show (if r = text.length / COL_CNT ∧ x = text.length % COL_CNT then (c, GRAY_ON_BLACK)
      else (page text).cell r x) = (page (text ++ [c])).cell r x
    unfold page COL_CNT
    dsimp only
    by_cases hpos : r = text.length / 80 ∧ x = text.length % 80
    · have hidx : r * 80 + x = text.length := by omega
      rw [if_pos hpos, if_pos (by omega), hidx, List.getElem?_concat_length]
      rfl
    · rw [if_neg hpos]
      by_cases hx : x < 80
      · have hne : r * 80 + x ≠ text.length := by omega
        rw [if_pos hx, if_pos hx]
        by_cases hlt : r * 80 + x < text.length
        · rw [List.getElem?_append_left hlt]
        · rw [List.getElem?_eq_none (by omega), List.getElem?_eq_none (by
            rw [List.length_append, List.length_singleton]
            omega)]
      · rw [if_neg hx, if_neg hx]
  rw [putc_printable h]
  unfold advance
  have hlen : (text ++ [c]).length = text.length + 1 := by simp
  by_cases hcol : text.length % 80 + 1 < 80
  · have : (page text).col + 1 < COL_CNT := hcol
    rw [if_pos this]
    unfold page at hcell ⊢
    simp only [write, COL_CNT, hlen, Sheet.mk.injEq] at hcell ⊢
    exact ⟨hcell, by omega, by omega, by rw [ROW_CNT]; omega⟩
  · have : ¬ (page text).col + 1 < COL_CNT := hcol
    rw [if_neg this]
    unfold page at hcell ⊢
    simp only [write, nextRow, COL_CNT, ROW_CNT, hlen, Sheet.mk.injEq] at hcell ⊢
    exact ⟨hcell, by omega, by omega, by omega⟩

theorem puts_printable {text : List UInt8} (h : ∀ c ∈ text, Printable c) :
    empty.puts text = page text := by
  induction text using List.reverseRecOn with
  | nil =>
      unfold page puts empty
      simp [ROW_CNT]
  | append_singleton text c ih =>
      have hrest : empty.puts text = page text := ih fun c hc => h c (by simp [hc])
      unfold puts at hrest ⊢
      rw [List.foldl_append, hrest]
      exact page_putc text (h c (by simp))

end Sheet

namespace Vga

/-- **Plain text fills the screen.** After a form feed and printable characters, the screen shows
as many of the last rows of the text as fit on it, row by row, and spaces behind the end. What was
on it before, and where the cursor was, does not matter. -/
theorem vga_shows_text (v : Vga) {text : List UInt8}
    (htext : ∀ c ∈ text, Sheet.Printable c) :
    ∃ v', v.vgaPuts (12 :: text) = .ok v' ∧ ∀ y x, y < ROW_CNT → x < COL_CNT →
      (cellAt v'.mem y x).1 =
        (text[(text.length / COL_CNT + 1 - ROW_CNT + y) * COL_CNT + x]?).getD 32 := by
  obtain ⟨v₁, hv₁, hshows, hsync⟩ := v.vgaPutc_formFeed
  obtain ⟨v', hv', hshows', -⟩ := hshows.vgaPuts hsync text
  have hsheet : Sheet.empty.puts text = Sheet.page text := Sheet.puts_printable htext
  refine ⟨v', ?_, fun y x hy hx => ?_⟩
  · rw [Vga.vgaPuts, hv₁]
    exact hv'
  rw [hshows'.cell y x hy hx, hsheet]
  show (if x < COL_CNT then _ else _ : UInt8 × UInt8).1 = _
  rw [if_pos hx]
  show ((text[(text.length / COL_CNT + 1 - ROW_CNT + y) * COL_CNT + x]?.map
    fun c => (c, GRAY_ON_BLACK)).getD Sheet.blank).1 = _
  cases text[(text.length / COL_CNT + 1 - ROW_CNT + y) * COL_CNT + x]? <;> rfl

theorem vga_shows_text_powerOn :
    ∃ v', powerOn.vgaPuts (12 :: [72, 105]) = .ok v' ∧ ∀ y x, y < ROW_CNT → x < COL_CNT →
      (cellAt v'.mem y x).1 = ([72, 105][(2 / COL_CNT + 1 - ROW_CNT + y) * COL_CNT + x]?).getD 32 :=
  vga_shows_text powerOn (by simp [Sheet.Printable])

end Vga

end OsTools.Devices

import Lorica.Framework.Ring
import Lorica.Proof.Glyph.Cells

/-!
# The history of the terminal

A stream without escape sequences is shown as on a page without end: the screen has the last lines
of the page, and a view into the history those further up. The page and the ring agree after each
byte (`Refines.feed`) as long as the number of cells, and the sum of a row of the ring and the rows
of the screen, are `int`s; a terminal for which they are not shows something else
(`scrollback_refines_iff`).
-/

namespace Lorica.Proof.Glyph

open Lorica.Impl.Glyph Lorica.Ring List

/-! ## Pages -/

/-- The page of a terminal without a last row, and the cursor on it. -/
structure Page where
  line : Nat → Nat → Cell
  x : Nat
  y : Nat

namespace Page

def new : Page := ⟨fun _ _ => blank, 0, 0⟩

def moveTo (p : Page) (x : Nat) : Page := { p with x }

def next (p : Page) : Page := { p with y := p.y + 1 }

/-- The cursor is set to a column, or to the next line where there is no such column. -/
def advance (p : Page) (cols x : Nat) : Page := if x < cols then p.moveTo x else (p.moveTo 0).next

def write (p : Page) (c : Cell) : Page :=
  { p with line := fun l i => if l = p.y ∧ i = p.x then c else p.line l i }

def feed (cols : Nat) (p : Page) (ch : UInt8) : Page :=
  if ch = newline then p.next
  else if ch = cr then p.moveTo 0
  else if ch = 8 ∨ ch = 127 then p.moveTo (p.x - 1)
  else if ch = tab then p.advance cols (8 * (p.x / 8 + 1))
  else (p.write ⟨ch, defaultPen⟩).advance cols (p.x + 1)

/-- The first line of a screen that ends with the last line, if the page is that long. -/
def top (p : Page) (rows : Nat) : Nat := p.y + 1 - rows

/-- There is nothing above the first line. -/
def cell (p : Page) (l c : Int) : Cell := if 0 ≤ l then p.line l.toNat c.toNat else blank

end Page

/-- The page of a stream. -/
def pageOf (cols : Nat) (data : Bytes) : Page := data.foldl (Page.feed cols) Page.new

/-- A printable character, a newline, a carriage return, a backspace or a tab. -/
def Plain (ch : UInt8) : Prop :=
  ch = newline ∨ ch = cr ∨ ch = 8 ∨ ch = 127 ∨ ch = tab ∨ 32 ≤ ch ∧ ch ≤ 126

/-- The view at each offset has the lines of the page that are so much further up, and its rows
above the screen are none of those of the screen. -/
structure Shows (t : Term) (p : Page) : Prop where
  view : ∀ k v c : Nat, k ≤ scrollbackLines → v < t.rows → c < t.cols →
    gridCell (glyphTermScrollBack t k) v c = p.cell (p.top t.rows.toNat + v - k) c
  apart : ∀ k v v' : Nat, k ≤ scrollbackLines → v < k → v < t.rows → v' < t.rows →
    viewRow (glyphTermScrollBack t k) v ≠ ringRow t v'

/-! ## Refinement -/

/-- The ring has the lines of the screen and of the history, and the cursor is where it is on the
page. -/
structure Refines (cols rows : Nat) (t : Term) (p : Page) : Prop where
  inv : Inv t
  cols_eq : t.cols = cols
  rows_eq : t.rows = rows
  cells_lt : t.totalRows * t.cols < 2 ^ 31
  bottom_lt : t.scrollTop + t.rows - 1 < 2 ^ 31
  normal : t.escState = .normal
  pen : t.pen = defaultPen
  offset : t.scrollOffset = 0
  cx : t.cx = p.x
  cy : t.cy = p.y - p.top rows
  scrollTop : t.scrollTop = p.top rows % t.totalRows
  below : ∀ l, p.y < l → ∀ c, p.line l c = blank
  holds : Holds t.totalRows t.cols t.grid (p.top rows - scrollbackLines) p.cell

theorem place_eq {total cols r c : Int} (hcells : total * cols < 2 ^ 31) (hr : 0 ≤ r) (hr' : r < total) (hc : 0 ≤ c)
    (hc' : c < cols) : place cols r c = r * cols + c := by
  have hrow : (r + 1) * cols ≤ total * cols := Int.mul_le_mul_of_nonneg_right (by omega) (by omega)
  have hnn : 0 ≤ r * cols := Int.mul_nonneg hr (by omega)
  rw [Int.add_mul] at hrow
  unfold place
  rw [wrap32_of_mem (i := r * cols) (by omega) (by omega), wrap32_of_mem (by omega) (by omega)]

/-- The remainder, made positive, is that of floored division. -/
theorem ring_eq {total : Int} (h : 0 < total) (x : Int) :
    (if x.tmod total < 0 then x.tmod total + total else x.tmod total) = x % total := by
  have hlt := Int.tmod_lt_of_pos x h
  have hgt := Int.lt_tmod_of_pos x h
  have hmod : x.tmod total % total = x % total := by
    rw [Int.tmod_def, Int.sub_mul_emod_self_left]
  split
  · rw [← hmod, ← Int.add_emod_right, Int.emod_eq_of_lt (by omega) (by omega)]
  · rw [← hmod, Int.emod_eq_of_lt (by omega) (by omega)]

section

variable {cols rows : Nat} {t : Term} {p : Page}

section

variable (h : Refines cols rows t p)

include h

theorem Refines.rows_pos : 0 < t.rows := h.inv.inGrid.cy_nonneg.trans_lt h.inv.inGrid.cy_lt

theorem Refines.totalRows_eq : t.totalRows = t.rows + 500 := by
  rw [h.inv.totalRows_eq, h.inv.scrollback_eq]
  rfl

/-- The row of the ring for a line near the screen. -/
theorem Refines.row_eq {d : Int} (hd : -500 ≤ d) (hd' : d < t.rows) :
    (if (wrap32 (t.scrollTop + d)).tmod t.totalRows < 0 then (wrap32 (t.scrollTop + d)).tmod t.totalRows + t.totalRows
      else (wrap32 (t.scrollTop + d)).tmod t.totalRows) = (p.top rows + d) % t.totalRows := by
  have htop := h.inv.inGrid.scrollTop_nonneg
  have hbottom := h.bottom_lt
  rw [wrap32_of_mem (by omega) (by omega), ring_eq h.inv.totalRows_pos, h.scrollTop, Int.emod_add_emod]

theorem Refines.ringRow_eq {v : Int} (hv : 0 ≤ v) (hv' : v < t.rows) :
    ringRow t v = (p.top rows + v) % t.totalRows :=
  h.row_eq (by omega) hv'

theorem Refines.scrollBack_eq {k : Int} (hk : 0 ≤ k) (hk' : k ≤ scrollbackLines) :
    glyphTermScrollBack t k = { t with scrollOffset := k } := by
  unfold scrollbackLines at hk'
  unfold glyphTermScrollBack scrollbackLines
  rw [h.offset, wrap32_of_mem (by omega) (by omega), zero_add]
  dsimp only
  rw [if_neg (by omega), if_neg (by omega)]

theorem Refines.viewRow_eq {k v : Int} (hk : 0 ≤ k) (hk' : k ≤ scrollbackLines) (hv : 0 ≤ v)
    (hv' : v < t.rows) : viewRow (glyphTermScrollBack t k) v = (p.top rows + v - k) % t.totalRows := by
  rw [h.scrollBack_eq hk hk']
  unfold scrollbackLines at hk'
  unfold viewRow
  rw [show t.scrollTop - k + v = t.scrollTop + (v - k) by omega, h.row_eq (by omega) (by omega), Int.add_sub_assoc]

/-- What the ring has is seen. -/
theorem Refines.shows : Shows t p := by
  have htotal := h.totalRows_eq
  have hrows : t.rows.toNat = rows := by have := h.rows_eq; omega
  refine ⟨fun k v c hk hv hc => ?_, fun k v v' hk hkv hv hv' heq => ?_⟩
  · have hrow := h.viewRow_eq (Int.natCast_nonneg k) hk (Int.natCast_nonneg v) hv
    have hpos := h.inv.totalRows_pos
    unfold gridCell
    rw [hrows, hrow, h.scrollBack_eq (Int.natCast_nonneg k) hk]
    rw [place_eq h.cells_lt (Int.emod_nonneg _ hpos.ne') (Int.emod_lt_of_pos _ hpos) (Int.natCast_nonneg c) hc]
    unfold scrollbackLines at hk
    exact h.holds _ (by unfold scrollbackLines; omega) (by unfold scrollbackLines; omega) c (Int.natCast_nonneg c) hc
  · rw [h.viewRow_eq (Int.natCast_nonneg k) hk (Int.natCast_nonneg v) hv,
      h.ringRow_eq (Int.natCast_nonneg v') hv'] at heq
    unfold scrollbackLines at hk
    have hline := line_inj (b := p.top rows - 500) (by omega) (by omega) (by omega) (by omega) heq
    omega

end

/-! ## Steps -/

theorem Refines.moveTo (h : Refines cols rows t p) {x : Int} {i : Nat} (hx : x = i) (hi : x < t.cols) :
    Refines cols rows { t with cx := x } (p.moveTo i) where
  inv := h.inv.column (by omega) hi
  cols_eq := h.cols_eq
  rows_eq := h.rows_eq
  cells_lt := h.cells_lt
  bottom_lt := h.bottom_lt
  normal := h.normal
  pen := h.pen
  offset := h.offset
  cx := hx
  cy := h.cy
  scrollTop := h.scrollTop
  below := h.below
  holds := h.holds

/-- A cell at the cursor is in the ring as it is on the page. -/
theorem Refines.write (h : Refines cols rows t p) (c : Cell) :
    Refines cols rows (writeAbs t t.cy t.cx c) (p.write c) := by
  have hg := h.inv.inGrid
  have hpos := h.inv.totalRows_pos
  have htotal := h.totalRows_eq
  have hcy := h.cy
  have hrow : ringRow t t.cy = p.y % t.totalRows := by
    rw [h.ringRow_eq hg.cy_nonneg hg.cy_lt, h.cy, add_sub_cancel]
  have hplace : place t.cols (ringRow t t.cy) t.cx = index t.totalRows t.cols p.y t.cx := by
    rw [hrow, place_eq h.cells_lt (Int.emod_nonneg _ hpos.ne') (Int.emod_lt_of_pos _ hpos) hg.cx_nonneg hg.cx_lt]
    rfl
  have hset := h.holds.set (l := p.y) (c := t.cx) (by have := hg.cy_nonneg; unfold scrollbackLines; omega)
    (by have := hg.cy_lt; unfold scrollbackLines; omega) hg.cx_nonneg hg.cx_lt c
  refine { h with
    inv := (writeAbs_paints hpos t.cy c hg.cx_nonneg hg.cx_lt).inv h.inv
    below := fun l hl i => ?_
    holds := ?_ }
  · have hl : p.y < l := hl
    unfold Page.write
    dsimp only
    rw [if_neg (by omega)]
    exact h.below l hl i
  · unfold writeAbs Impl.Glyph.write setCell
    dsimp only
    rw [hplace]
    intro l hl hl' d hd hd'
    rw [hset l hl hl' d hd hd']
    unfold Page.cell Page.write
    have hcx := h.cx
    dsimp only
    by_cases hnn : 0 ≤ l
    · rw [if_pos hnn, if_pos hnn]
      exact if_congr (by omega) rfl rfl
    · rw [if_neg hnn, if_neg hnn, if_neg (by omega)]

/-- The cells of a row are made blank. -/
theorem grid_blankRow (t : Term) (base row : Int) (n : Nat) (k : Int) :
    ((range n).foldl (fun t (i : Nat) => Impl.Glyph.write t (base + i) row i blank) t).grid k =
      if base ≤ k ∧ k < base + n then blank else t.grid k := by
  induction n with
  | zero => rw [range_zero, foldl_nil, if_neg (by omega)]
  | succ n ih =>
    rw [range_succ, foldl_append]
    show (if k = base + n then blank else _) = _
    rw [ih]
    split
    · rw [if_pos (by omega)]
    · exact if_congr (by omega) rfl rfl

/-- The loop of `term_scroll` only changes cells. -/
theorem foldl_write_same (row : Int) (n : Nat) (t : Term) : ∃ g a,
    (range n).foldl (fun t (i : Nat) => Impl.Glyph.write t (place t.cols row 0 + i) row i blank) t =
      { t with grid := g, touched := a } := by
  induction n with
  | zero => exact ⟨t.grid, t.touched, rfl⟩
  | succ n ih =>
    obtain ⟨g, a, hn⟩ := ih
    rw [range_succ, foldl_append, hn]
    exact ⟨_, _, rfl⟩

theorem foldl_write_place (row : Int) (n : Nat) (t : Term) :
    (range n).foldl (fun t (i : Nat) => Impl.Glyph.write t (place t.cols row 0 + i) row i blank) t =
      (range n).foldl (fun t1 (i : Nat) => Impl.Glyph.write t1 (place t.cols row 0 + i) row i blank) t := by
  induction n with
  | zero => rfl
  | succ n ih =>
    obtain ⟨g, a, hn⟩ := foldl_write_same row n t
    rw [range_succ, foldl_append, foldl_append, ← ih, hn]
    rfl

theorem termScroll_same (t : Term) : ∃ g a, termScroll t = { t with
      grid := g, touched := a, scrollTop := (wrap32 (t.scrollTop + 1)).tmod t.totalRows, cy := t.rows - 1 } := by
  unfold termScroll
  dsimp only
  obtain ⟨g, a, h⟩ := foldl_write_same
    ((wrap32 ((wrap32 (t.scrollTop + 1)).tmod t.totalRows + t.rows - 1)).tmod t.totalRows)
    t.cols.toNat { t with scrollTop := (wrap32 (t.scrollTop + 1)).tmod t.totalRows }
  rw [h]
  exact ⟨g, a, rfl⟩

theorem termScroll_grid {top bottom : Int} (htop : (wrap32 (t.scrollTop + 1)).tmod t.totalRows = top)
    (hbottom : (wrap32 (top + t.rows - 1)).tmod t.totalRows = bottom) (k : Int) :
    (termScroll t).grid k = if place t.cols bottom 0 ≤ k ∧ k < place t.cols bottom 0 + t.cols.toNat then blank
      else t.grid k := by
  unfold termScroll
  dsimp only
  rw [htop, hbottom, foldl_write_place]
  exact grid_blankRow _ _ _ _ _

section

variable (h : Refines cols rows t p)

include h

theorem Refines.top_next :
    p.next.top rows = if t.rows ≤ t.cy + 1 then p.top rows + 1 else p.top rows := by
  have hcy := h.cy
  have hrows' := h.rows_eq
  unfold Page.top at hcy
  unfold Page.top Page.next
  dsimp only
  split <;> omega

/-- A line is done; on the last row of the screen the ring moves on. -/
theorem Refines.next (hs : t.rows ≤ t.cy + 1 → ScrollFits t) : Refines cols rows (nextLine t) p.next := by
  have hg := h.inv.inGrid
  have hpos := h.inv.totalRows_pos
  have htotal := h.totalRows_eq
  have hrows := h.rows_pos
  have hnext := h.top_next
  have hcy := h.cy
  have hinv := nextLine_inv h.inv hs
  have hwrap : wrap32 (t.cy + 1) = t.cy + 1 := by
    have := h.inv.rows_lt
    exact wrap32_of_mem (by have := hg.cy_nonneg; omega) (by have := hg.cy_lt; omega)
  have hbelow (l : Nat) (hl : p.y + 1 < l) (c : Nat) : p.line l c = blank := h.below l (by omega) c
  unfold nextLine at hinv ⊢
  rw [hwrap] at hinv ⊢
  by_cases hlast : t.cy + 1 ≥ t.rows
  · have hfits := hs hlast
    rw [if_pos hlast] at hinv ⊢
    rw [if_pos hlast] at hnext
    have htop : (wrap32 (t.scrollTop + 1)).tmod t.totalRows = (t.scrollTop + 1).tmod t.totalRows := by
      have := hg.scrollTop_lt
      have := h.inv.totalRows_lt
      rw [wrap32_of_mem (by have := hg.scrollTop_nonneg; omega) (by omega)]
    have htop' : (t.scrollTop + 1).tmod t.totalRows = p.next.top rows % t.totalRows := by
      rw [Int.tmod_eq_emod_of_nonneg (by have := hg.scrollTop_nonneg; omega), h.scrollTop, Int.emod_add_emod, hnext]
      rfl
    have htop0 : 0 ≤ (t.scrollTop + 1).tmod t.totalRows := htop' ▸ Int.emod_nonneg _ hpos.ne'
    have hsum : wrap32 ((t.scrollTop + 1).tmod t.totalRows + t.rows - 1) =
        (t.scrollTop + 1).tmod t.totalRows + t.rows - 1 := wrap32_of_mem (by omega) hfits
    -- the new last row is the one of the line that leaves the history
    have hbottom : (wrap32 ((t.scrollTop + 1).tmod t.totalRows + t.rows - 1)).tmod t.totalRows =
        (p.top rows - scrollbackLines + t.totalRows) % t.totalRows := by
      rw [hsum, Int.tmod_eq_emod_of_nonneg (by omega), htop', Int.add_sub_assoc, Int.emod_add_emod]
      congr 1
      unfold scrollbackLines
      omega
    have hgrid := termScroll_grid (t := { t with cy := t.cy + 1 }) htop hbottom
    have hplace : place t.cols ((p.top rows - scrollbackLines + t.totalRows) % t.totalRows) 0 =
        index t.totalRows t.cols (p.top rows - scrollbackLines + t.totalRows) 0 :=
      place_eq h.cells_lt (Int.emod_nonneg _ hpos.ne') (Int.emod_lt_of_pos _ hpos) le_rfl
        (hg.cx_nonneg.trans_lt hg.cx_lt)
    have hcols : (t.cols.toNat : Int) = t.cols := Int.toNat_of_nonneg (by have := hg.cx_nonneg; have := hg.cx_lt; omega)
    have hcy' := hg.cy_lt
    have hadvance := h.holds.advance (a := blank) fun c _ _ => by
      unfold Page.cell
      rw [if_pos (by unfold scrollbackLines; omega)]
      exact h.below _ (by unfold scrollbackLines; omega) _
    obtain ⟨g, a, hsame⟩ := termScroll_same { t with cy := t.cy + 1 }
    generalize termScroll { t with cy := t.cy + 1 } = t' at hinv hsame hgrid ⊢
    have hgrid' : t'.grid = fun k => if index t.totalRows t.cols (p.top rows - scrollbackLines + t.totalRows) 0 ≤ k ∧
        k < index t.totalRows t.cols (p.top rows - scrollbackLines + t.totalRows) 0 + t.cols then blank
        else t.grid k := by
      funext k
      rw [hgrid k, hplace]
      rw [hcols]
    have hrows' : t'.rows = t.rows := by rw [hsame]
    have htotal' : t'.totalRows = t.totalRows := by rw [hsame]
    have hcols' : t'.cols = t.cols := by rw [hsame]
    have hscroll : t'.scrollTop = (t.scrollTop + 1).tmod t.totalRows := by rw [hsame]; exact htop
    refine ⟨hinv, ?_, ?_, ?_, ?_, ?_, ?_, ?_, ?_, ?_, ?_, hbelow, ?_⟩
    · rw [hcols', h.cols_eq]
    · rw [hrows', h.rows_eq]
    · rw [htotal', hcols']; exact h.cells_lt
    · rw [hscroll, hrows']; exact hfits
    · rw [hsame]; exact h.normal
    · rw [hsame]; exact h.pen
    · rw [hsame]; exact h.offset
    · rw [hsame]; exact h.cx
    · rw [show t'.cy = t.rows - 1 by rw [hsame]]
      show t.rows - 1 = ((p.y + 1 : Nat) : Int) - _
      omega
    · rw [hscroll, htotal', htop']
    · rw [htotal', hcols', hgrid', hnext]
      have hlow : ((p.top rows + 1 : Nat) : Int) - scrollbackLines = p.top rows - scrollbackLines + 1 := by
        omega
      rw [hlow]
      exact hadvance
  · rw [if_neg hlast] at hinv ⊢
    rw [if_neg hlast] at hnext
    refine { h with inv := hinv, below := hbelow, cy := ?_, scrollTop := ?_, holds := ?_ }
    · show t.cy + 1 = ((p.y + 1 : Nat) : Int) - _
      omega
    · rw [hnext]; exact h.scrollTop
    · rw [hnext]; exact h.holds

theorem Refines.advance {x : Int} {i : Nat} (hx : x = i)
    (hs : t.cols ≤ x → t.rows ≤ t.cy + 1 → ScrollFits t) :
    Refines cols rows (if x ≥ t.cols then nextLine { t with cx := 0 } else { t with cx := x }) (p.advance cols i) := by
  have hcols := h.cols_eq
  unfold Page.advance
  by_cases hend : x ≥ t.cols
  · rw [if_pos hend, if_neg (by omega)]
    have hstart : Refines cols rows { t with cx := 0 } (p.moveTo 0) :=
      h.moveTo rfl (h.inv.inGrid.cx_nonneg.trans_lt h.inv.inGrid.cx_lt)
    exact hstart.next (hs hend)
  · rw [if_neg hend, if_pos (by omega)]
    exact h.moveTo hx (by omega)

/-- A tab does not leave the `int`s, since there are more rows than one. -/
theorem Refines.cols_lt : t.cols + 8 < 2 ^ 31 := by
  have hle : 501 * t.cols ≤ t.totalRows * t.cols := by
    have := h.totalRows_eq
    have := h.rows_pos
    have := h.cols_eq
    exact Int.mul_le_mul_of_nonneg_right (by omega) (by omega)
  have := h.cells_lt
  omega

theorem Refines.feed {ch : UInt8} (hch : Plain ch)
    (hs : t.rows ≤ t.cy + 1 → ScrollFits t) : Refines cols rows (feedByte t ch) (p.feed cols ch) := by
  have hg := h.inv.inGrid
  have hcols := h.cols_lt
  have hcx := h.cx
  have hstep : feedByte t ch = normalByte t ch := by
    unfold feedByte
    rw [h.normal]
  have hesc : ch ≠ 0x1B := by
    rintro rfl
    exact absurd hch (by unfold Plain; decide)
  rw [hstep]
  unfold normalByte Page.feed
  rw [if_neg hesc]
  split
  · exact h.next hs
  split
  · exact h.moveTo rfl (hg.cx_nonneg.trans_lt hg.cx_lt)
  split
  · split
    · exact h.moveTo (by omega) (by have := hg.cx_lt; omega)
    · rw [show p.moveTo (p.x - 1) = p by unfold Page.moveTo; rw [show p.x - 1 = p.x by omega]]
      exact h
  split
  · have hwrap : wrap32 (t.cx + 8) = t.cx + 8 :=
      wrap32_of_mem (by have := hg.cx_nonneg; omega) (by have := hg.cx_lt; omega)
    exact h.advance (by omega) fun _ => hs
  · have hprint : 32 ≤ ch ∧ ch ≤ 126 := by
      rcases hch with h | h | h | h | h | h <;> simp_all
    have hwrap : wrap32 (t.cx + 1) = t.cx + 1 :=
      wrap32_of_mem (by have := hg.cx_nonneg; omega) (by have := hg.cx_lt; omega)
    rw [if_pos hprint, h.pen]
    unfold putChar
    dsimp only
    rw [show (writeAbs t t.cy t.cx ⟨ch, defaultPen⟩).cx = t.cx from rfl]
    exact (h.write ⟨ch, defaultPen⟩).advance (by omega) fun _ => hs

/-- Where twice the rows and the history are an `int`, each scroll can be computed. -/
theorem Refines.scrollFits (hrows : 2 * (rows : Int) + scrollbackLines - 2 < 2 ^ 31) :
    ScrollFits t := by
  have hlt := Int.tmod_lt_of_pos (t.scrollTop + 1) h.inv.totalRows_pos
  have htotal := h.totalRows_eq
  have hrows' := h.rows_eq
  unfold scrollbackLines at hrows
  unfold ScrollFits
  omega

theorem Refines.run (hrows : 2 * (rows : Int) + scrollbackLines - 2 < 2 ^ 31) {data : Bytes}
    (hdata : ∀ ch ∈ data, Plain ch) : Refines cols rows (data.foldl feedByte t) (data.foldl (Page.feed cols) p) := by
  induction data generalizing t p with
  | nil => exact h
  | cons ch data ih =>
    exact ih (h.feed (hdata ch mem_cons_self) fun _ => h.scrollFits hrows)
      fun c hc => hdata c (mem_cons_of_mem _ hc)

end

end

/-! ## New terminals -/

section

variable {cols rows cellW cellH padX padY : CInt} {t : Term}

theorem refines_of_create (hc : 1 ≤ cols.val) (hr : 1 ≤ rows.val)
    (hcells : (rows.val + scrollbackLines) * cols.val < 2 ^ 31)
    (ht : glyphTermCreate cols rows cellW cellH padX padY true = some t) :
    Refines cols.val.toNat rows.val.toNat t Page.new := by
  have hsize : rows.val + scrollbackLines < 2 ^ 31 := by
    have := le_mul_of_one_le_right (show 0 ≤ rows.val + scrollbackLines by unfold scrollbackLines; omega) hc
    omega
  have hinv := inv_of_create hc hr hsize ht
  have htotal : wrap32 (rows.val + scrollbackLines) = rows.val + scrollbackLines :=
    wrap32_of_mem (by unfold scrollbackLines; omega) hsize
  have htop : Page.new.top rows.val.toNat = 0 := by
    unfold Page.top Page.new
    dsimp only
    omega
  have hcells0 : 0 ≤ (rows.val + scrollbackLines) * cols.val :=
      Int.mul_nonneg (by unfold scrollbackLines; omega) (by omega)
  unfold glyphTermCreate at ht
  cases ht
  rw [htotal, wrap32_of_mem (i := (rows.val + scrollbackLines) * cols.val) (by omega) hcells] at *
  refine ⟨hinv, ?_, ?_, hcells, ?_, rfl, rfl, rfl, rfl, ?_, ?_, fun _ _ _ => rfl, ?_⟩
  · show cols.val = _
    omega
  · show rows.val = _
    omega
  · show 0 + rows.val - 1 < 2 ^ 31
    have := rows.high
    omega
  · rw [htop]
    rfl
  · rw [htop]
    exact (Int.zero_emod _).symm
  · intro l _ _ c hc0 hc1
    obtain ⟨hlow, hhigh⟩ := index_bounds (n := rows.val + scrollbackLines) (l := l)
      (by unfold scrollbackLines; omega) hc0 hc1
    show newCells _ _ = _
    unfold newCells Page.cell
    rw [if_pos ⟨hlow, hhigh⟩]
    split <;> rfl

/-! ## Too many cells -/

/-- A cell of a new terminal that the loop does not reach is not blank. -/
theorem not_shows_new (ht : glyphTermCreate cols rows cellW cellH padX padY true = some t) {k v c : Nat}
    (hk : k ≤ scrollbackLines) (hv : v < rows.val) (hc : c < cols.val) {r : Int}
    (hrow : viewRow { t with scrollOffset := k } v = r)
    (hcell : ¬ (0 ≤ place cols.val r c ∧
    place cols.val r c < wrap32 (wrap32 (rows.val + scrollbackLines) * cols.val))) :
    ¬ Shows t Page.new := by
  intro h
  unfold glyphTermCreate at ht
  cases ht
  have hview := h.view k v c hk hv hc
  have hblank : ∀ l, Page.new.cell l c = blank := fun l => by
    unfold Page.cell
    split <;> rfl
  have hback : wrap32 (0 + (k : Int)) = k := by
    unfold scrollbackLines at hk
    rw [zero_add]
    exact wrap32_of_mem (by omega) (by omega)
  unfold glyphTermScrollBack at hview
  dsimp only at hview
  rw [hback, if_neg (by omega), if_neg (by omega), hblank] at hview
  unfold gridCell at hview
  rw [hrow] at hview
  dsimp only [newCells] at hview
  rw [if_neg hcell] at hview
  exact absurd hview (by decide)

/-- The cell whose index is the first that is no `int`. -/
theorem place_wraps (n : Int) : place n (2 ^ 31 / n) (2 ^ 31 % n) = -2 ^ 31 := by
  unfold place wrap32
  rw [Int.bmod_add_bmod, Int.ediv_mul_add_emod]
  rfl

theorem cells_lt_of_shows (hc : 1 ≤ cols.val) (hr : 1 ≤ rows.val)
    (ht : glyphTermCreate cols rows cellW cellH padX padY true = some t) (h : Shows t Page.new) :
    (rows.val + scrollbackLines) * cols.val < 2 ^ 31 := by
  by_contra hcells
  have hrows := rows.high
  have htop : t.scrollTop = 0 ∧ t.totalRows = wrap32 (rows.val + 500) := by
    unfold glyphTermCreate at ht
    cases ht
    exact ⟨rfl, rfl⟩
  have hview (k v : Int) (hk : 0 ≤ k) (hk' : k ≤ 500) (hv : 0 ≤ v) (hv' : v < rows.val) :
      viewRow { t with scrollOffset := k } v =
        if (v - k).tmod (wrap32 (rows.val + 500)) < 0 then (v - k).tmod (wrap32 (rows.val + 500)) +
          wrap32 (rows.val + 500)
        else (v - k).tmod (wrap32 (rows.val + 500)) := by
    unfold viewRow
    dsimp only
    rw [htop.1, htop.2, wrap32_of_mem (by omega) (by omega), show (0 : Int) - k + v = v - k by omega]
  -- the row of the first cell that has no index
  have hr0 : 0 ≤ 2 ^ 31 / cols.val := Int.ediv_nonneg (by decide) (by omega)
  have hc0 := Int.emod_nonneg (2 ^ 31) (by omega : cols.val ≠ 0)
  have hc1 := Int.emod_lt_of_pos (2 ^ 31) (by omega : 0 < cols.val)
  have hfar : ¬ (0 ≤ place cols.val (2 ^ 31 / cols.val) (2 ^ 31 % cols.val) ∧
      place cols.val (2 ^ 31 / cols.val)
        (2 ^ 31 % cols.val) < wrap32 (wrap32 (rows.val + scrollbackLines) * cols.val)) := by
    rw [place_wraps]
    omega
  have hcol : (((2 ^ 31 % cols.val).toNat : Nat) : Int) = 2 ^ 31 % cols.val := Int.toNat_of_nonneg hc0
  have hrow : (((2 ^ 31 / cols.val).toNat : Nat) : Int) = 2 ^ 31 / cols.val := Int.toNat_of_nonneg hr0
  have hlive (hlt : 2 ^ 31 / cols.val < rows.val)
      (hmod : (2 ^ 31 / cols.val).tmod (wrap32 (rows.val + 500)) = 2 ^ 31 / cols.val) : False := by
    refine not_shows_new ht (k := 0) (v := (2 ^ 31 / cols.val).toNat) (c := (2 ^ 31 % cols.val).toNat) (by decide)
      (by omega) (by omega) (r := 2 ^ 31 / cols.val) ?_ (by rw [hcol]; exact hfar) h
    rw [hrow]
    refine (hview 0 _ le_rfl (by decide) hr0 hlt).trans ?_
    rw [Int.sub_zero, hmod, if_neg (by omega)]
  have hunfilled (hneg : wrap32 (wrap32 (rows.val + scrollbackLines) * cols.val) ≤ 0) : False :=
    not_shows_new ht (k := 0) (v := 0) (c := 0) (by decide) (by omega) (by omega) rfl (by omega) h
  unfold scrollbackLines at hcells hunfilled hfar
  by_cases hsize : rows.val + 500 < 2 ^ 31
  · have htotal : wrap32 (rows.val + 500) = rows.val + 500 := wrap32_of_mem (by omega) hsize
    by_cases hexact : (rows.val + 500) * cols.val = 2 ^ 31
    · rw [htotal, hexact] at hunfilled
      exact hunfilled (by decide)
    have hlt : 2 ^ 31 / cols.val < rows.val + 500 := Int.ediv_lt_of_lt_mul (by omega) (by omega)
    by_cases hrow' : 2 ^ 31 / cols.val < rows.val
    · exact hlive hrow' (by rw [htotal]; exact Int.tmod_eq_of_lt hr0 hlt)
    · -- a row of the history
      refine not_shows_new ht (k := (rows.val + 500 - 2 ^ 31 / cols.val).toNat) (v := 0)
        (c := (2 ^ 31 % cols.val).toNat) (by unfold scrollbackLines; omega) (by omega) (by omega)
        (r := 2 ^ 31 / cols.val) ?_ (by rw [hcol]; exact hfar) h
      refine (hview _ 0 (by omega) (by omega) le_rfl (by omega)).trans ?_
      rw [htotal, Int.zero_sub, Int.neg_tmod, Int.tmod_eq_of_lt (by omega) (by omega)]
      omega
  · have htotal : wrap32 (rows.val + 500) = -(2 ^ 32 - (rows.val + 500)) := by
      unfold wrap32 Int.bmod
      dsimp only
      split <;> omega
    by_cases hone : cols.val = 1
    · rw [htotal, hone, wrap32_of_mem (by omega) (by omega)] at hunfilled
      exact hunfilled (by omega)
    have htwo : 2 ^ 31 / cols.val * 2 ≤ 2 ^ 31 / cols.val * cols.val := Int.mul_le_mul_of_nonneg_left (by omega) hr0
    have hmul := Int.ediv_mul_le (2 ^ 31) (by omega : cols.val ≠ 0)
    refine hlive (by omega) ?_
    rw [htotal, Int.tmod_neg]
    exact Int.tmod_eq_of_lt hr0 (by omega)

end

/-! ## Too many rows -/

theorem emod_le_self {a b : Int} (ha : 0 ≤ a) (hb : 0 < b) : a % b ≤ a := by
  have hdiv := Int.mul_nonneg hb.le (Int.ediv_nonneg ha hb.le)
  have hsum := Int.mul_ediv_add_emod a b
  omega

/-- The letter that fills the lines. -/
def letter : Cell := ⟨65, defaultPen⟩

/-- Letters have filled the first lines of one column. -/
structure Filled (p : Page) (m : Nat) : Prop where
  x : p.x = 0
  y : p.y = m
  line : ∀ l < m, p.line l 0 = letter

section

variable {rows : Nat} {t : Term} {p : Page}

/-- The last row that a scroll computes is negative: it makes no row of the ring blank, and an old
line is seen on the screen. -/
theorem Refines.not_shows_next (h : Refines 1 rows t p)
    (hrows : 2 ^ 31 ≤ 2 * (rows : Int) + 498) (hy : p.y = 2 ^ 31 - 1)
    (hline : ∀ l ≤ p.y, p.line l 0 = letter) : ¬ Shows (nextLine t) p.next := by
  intro hshows
  have htotal := h.totalRows_eq
  have hrows' := h.rows_eq
  have hlt := h.inv.totalRows_lt
  have hcy := h.cy
  have htop := h.scrollTop
  unfold Page.top at hcy htop
  rw [Int.emod_eq_of_lt (by omega) (by omega)] at htop
  have hwrap : wrap32 (t.cy + 1) = t.cy + 1 := wrap32_of_mem (by omega) (by omega)
  have hnew : (wrap32 (t.scrollTop + 1)).tmod t.totalRows = t.scrollTop + 1 := by
    rw [wrap32_of_mem (by omega) (by omega)]
    exact Int.tmod_eq_of_lt (by omega) (by omega)
  have hover : (wrap32 (2 ^ 31)).tmod t.totalRows = t.totalRows - 2 ^ 31 := by
    rw [show wrap32 (2 ^ 31) = -2 ^ 31 from rfl, Int.neg_tmod, Int.tmod_eq_emod_of_nonneg (by decide),
      ← Int.sub_emod_right, Int.emod_eq_of_lt (by omega) (by omega)]
    omega
  have hbottom : (wrap32 (t.scrollTop + 1 + t.rows - 1)).tmod t.totalRows = t.totalRows - 2 ^ 31 := by
    rw [show t.scrollTop + 1 + t.rows - 1 = 2 ^ 31 by omega]
    exact hover
  have hgrid := termScroll_grid (t := { t with cy := t.cy + 1 }) hnew hbottom
  obtain ⟨g, b, hsame⟩ := termScroll_same { t with cy := t.cy + 1 }
  have hview := hshows.view 0 (rows - 1) 0 (by decide)
  unfold nextLine at hview
  rw [hwrap] at hview
  dsimp only at hview
  rw [if_pos (by omega)] at hview
  generalize termScroll { t with cy := t.cy + 1 } = t' at hgrid hsame hview
  have hcols : t'.cols = 1 := by rw [hsame]; exact h.cols_eq
  have hrow : viewRow (glyphTermScrollBack t' (0 : Nat)) (rows - 1 : Nat) = 2 * t.totalRows - 2 ^ 31 := by
    have hback : glyphTermScrollBack t' (0 : Nat) = { t' with scrollOffset := 0 } := by
      unfold glyphTermScrollBack
      rw [show t'.scrollOffset = 0 by rw [hsame]; exact h.offset]
      rfl
    unfold viewRow
    rw [hback, show t'.totalRows = t.totalRows by rw [hsame],
      show t'.scrollTop = t.scrollTop + 1 by rw [hsame]; exact hnew,
        show t.scrollTop + 1 - 0 + ((rows - 1 : Nat) : Int) = 2 ^ 31 by omega]
    dsimp only
    omega
  have hplace (r : Int) (hr : -2 ^ 31 ≤ r) (hr' : r < 2 ^ 31) : place 1 r 0 = r := by
    unfold place
    rw [Int.mul_one, wrap32_of_mem hr hr', Int.add_zero, wrap32_of_mem hr hr']
  -- the ring still has a line in that row
  have hold : t.grid (2 * t.totalRows - 2 ^ 31) = letter := by
    have hpos := h.inv.totalRows_pos
    have hmod := Int.emod_nonneg (2 * t.totalRows - 2 ^ 31 - (p.top rows - 500)) hpos.ne'
    have hmod' := Int.emod_lt_of_pos (2 * t.totalRows - 2 ^ 31 - (p.top rows - 500)) hpos
    have hcell := h.holds (p.top rows - 500 + (2 * t.totalRows - 2 ^ 31 - (p.top rows - 500)) % t.totalRows)
      (by unfold scrollbackLines; omega) (by unfold scrollbackLines; omega) 0 le_rfl (by have := h.cols_eq; omega)
    unfold index at hcell
    rw [Int.add_emod_emod, add_sub_cancel, Int.emod_eq_of_lt (by omega) (by omega), h.cols_eq] at hcell
    rw [show (2 * t.totalRows - 2 ^ 31) * ((1 : Nat) : Int) + 0 = 2 * t.totalRows - 2 ^ 31 by omega] at hcell
    rw [hcell]
    unfold Page.cell
    have htop' : p.top rows = p.y + 1 - rows := rfl
    rw [if_pos (by omega)]
    exact hline _ (by omega)
  have hbelow : p.next.cell (p.next.top t'.rows.toNat + (rows - 1 : Nat) - (0 : Nat)) (0 : Nat) = blank := by
    rw [show t'.rows = rows by rw [hsame]; exact hrows']
    unfold Page.cell
    have htop' : p.next.top (rows : Int).toNat = p.y + 2 - rows := by
      unfold Page.top Page.next
      rw [Int.toNat_natCast]
    rw [if_pos (by omega)]
    exact h.below _ (by omega) _
  have hseen := hview (by rw [hsame]; show _ < t.rows; omega) (by rw [hcols]; decide)
  rw [hbelow] at hseen
  unfold gridCell at hseen
  rw [hrow, show (glyphTermScrollBack t' (0 : Nat)).cols = 1 from hcols, show ((0 : Nat) : Int) = 0 from rfl,
    hplace _ (by omega) (by omega)] at hseen
  have hkept := hgrid (2 * t.totalRows - 2 ^ 31)
  dsimp only at hkept
  rw [show t.cols = 1 from h.cols_eq, hplace _ (by omega) (by omega), if_neg (by omega), hold] at hkept
  exact absurd (hkept.symm.trans hseen) (by decide)

theorem line_write (p : Page) {m : Nat} (h : Filled p m) {l : Nat} (hl : l ≤ m) :
    (p.write letter).line l 0 = letter := by
  show (if l = p.y ∧ 0 = p.x then letter else p.line l 0) = letter
  split
  · rfl
  · have hy := h.y
    have hx := h.x
    exact h.line l (by omega)

theorem Filled.feed {m : Nat} (h : Filled p m) : Filled (p.feed 1 65) (m + 1) := by
  refine ⟨rfl, congrArg (· + 1) h.y, fun l hl => ?_⟩
  exact line_write p h (by omega)

theorem Refines.fill (h : Refines 1 rows t Page.new) {m : Nat} (hm : m < 2 ^ 31) :
    Refines 1 rows ((replicate m 65).foldl feedByte t) (pageOf 1 (replicate m 65)) ∧
      Filled (pageOf 1 (replicate m 65)) m := by
  induction m with
  | zero => exact ⟨h, rfl, rfl, fun _ hl => absurd hl (Nat.not_lt_zero _)⟩
  | succ m ih =>
    obtain ⟨hr, hf⟩ := ih (by omega)
    unfold pageOf at hr hf ⊢
    rw [replicate_succ', foldl_append, foldl_append]
    refine ⟨hr.feed (by unfold Plain; decide) fun hlast => ?_, hf.feed⟩
    -- the screen ends with the line of the cursor
    have htop := hr.inv.inGrid.scrollTop_nonneg
    have hpos := hr.inv.totalRows_pos
    have hcy := hr.cy
    have hle := emod_le_self (Int.natCast_nonneg ((foldl (Page.feed 1) Page.new (replicate m 65)).top rows)) hpos
    rw [← hr.scrollTop] at hle
    unfold Page.top at hle hcy
    rw [hf.y] at hle hcy
    have hnext := emod_le_self (a := ((replicate m 65).foldl feedByte t).scrollTop + 1) (by omega) hpos
    unfold ScrollFits
    rw [Int.tmod_eq_emod_of_nonneg (by omega)]
    omega

theorem rows_lt_of_shows (h : Refines 1 rows t Page.new)
    (hshows : ∀ data : Bytes, (∀ ch ∈ data, Plain ch) → Shows (data.foldl feedByte t) (pageOf 1 data)) :
    2 * (rows : Int) + scrollbackLines - 2 < 2 ^ 31 := by
  by_contra hrows
  obtain ⟨m, hm⟩ : ∃ m : Nat, m = 2 ^ 31 - 1 := ⟨_, rfl⟩
  obtain ⟨hr, hf⟩ := h.fill (m := m) (by omega)
  have hlast := hshows (replicate m 65 ++ [65]) fun ch hch => by
    rcases mem_append.mp hch with hch | hch
    · rw [(mem_replicate.mp hch).2]
      unfold Plain
      decide
    · rw [mem_singleton.mp hch]
      unfold Plain
      decide
  unfold pageOf at hr hf hlast
  rw [foldl_append, foldl_append] at hlast
  generalize (replicate m 65).foldl feedByte t = t1 at hr hlast
  generalize (replicate m 65).foldl (Page.feed 1) Page.new = p1 at hr hf hlast
  have hcols : t1.cols = 1 := hr.cols_eq
  have hcx : t1.cx = 0 := hr.cx.trans (congrArg _ hf.x)
  have hstep : feedByte t1 65 = nextLine { writeAbs t1 t1.cy t1.cx letter with cx := 0 } := by
    unfold feedByte normalByte putChar
    rw [hr.normal, hr.pen]
    dsimp only
    exact if_pos (by show t1.cols ≤ wrap32 (t1.cx + 1); rw [hcx, hcols]; decide)
  have hwritten : Refines 1 rows { writeAbs t1 t1.cy t1.cx letter with cx := 0 } ((p1.write letter).moveTo 0) :=
    (hr.write letter).moveTo rfl (by show 0 < t1.cols; omega)
  rw [foldl_cons, foldl_nil, foldl_cons, foldl_nil, hstep] at hlast
  refine hwritten.not_shows_next ?_ (hf.y.trans hm) (fun l hl => ?_) hlast
  · unfold scrollbackLines at hrows
    omega
  · exact line_write p1 hf (hf.y ▸ hl)

end

/-! ## Results -/

/-- What is seen of a new terminal, on the screen and in the history, is the page of the stream, for
each stream, exactly if the number of its cells and the highest row a scroll computes are `int`s. -/
theorem scrollback_refines_iff (cols rows : CInt)
    (hc : 1 ≤ cols.val) (hr : 1 ≤ rows.val) (cellW cellH padX padY : CInt) :
    (∀ t, glyphTermCreate cols rows cellW cellH padX padY true = some t → ∀ data : Bytes, (∀ ch ∈ data, Plain ch) →
        Shows (termCall t (.feed data)) (pageOf cols.val.toNat data)) ↔
      (rows.val + scrollbackLines) * cols.val < 2 ^ 31 ∧ 2 * rows.val + scrollbackLines - 2 < 2 ^ 31 := by
  obtain ⟨t, ht⟩ : ∃ t, glyphTermCreate cols rows cellW cellH padX padY true = some t := ⟨_, rfl⟩
  have hsnap : snap t = t := by
    unfold glyphTermCreate at ht
    cases ht
    rfl
  have hrows : ((rows.val.toNat : Nat) : Int) = rows.val := Int.toNat_of_nonneg (by omega)
  constructor
  · intro h
    have hshows (data : Bytes) (hdata : ∀ ch ∈ data, Plain ch) :
        Shows (data.foldl feedByte t) (pageOf cols.val.toNat data) := by
      have hfeed := h t ht data hdata
      unfold termCall at hfeed
      rw [hsnap] at hfeed
      exact hfeed
    have hcells := cells_lt_of_shows hc hr ht (hshows [] (by simp))
    refine ⟨hcells, ?_⟩
    by_cases hone : cols.val = 1
    · have hnew := refines_of_create hc hr hcells ht
      rw [hone] at hnew hshows
      rw [← hrows]
      exact rows_lt_of_shows hnew hshows
    · have htwo : (rows.val + scrollbackLines) * 2 ≤ (rows.val + scrollbackLines) * cols.val :=
        Int.mul_le_mul_of_nonneg_left (by omega) (by unfold scrollbackLines; omega)
      unfold scrollbackLines at htwo hcells ⊢
      omega
  · rintro ⟨hcells, hfits⟩ t' ht' data hdata
    cases ht.symm.trans ht'
    unfold termCall
    rw [hsnap]
    exact ((refines_of_create hc hr hcells ht).run (by rw [hrows]; exact hfits) hdata).shows

/-- A line, half a line and a tab on a terminal of 80 columns and 25 rows. -/
theorem scrollback_refines_80_25 :
    ∃ t, glyphTermCreate (small 80) (small 25) (small 8) (small 16) (small 0) (small 0) true = some t ∧
    Shows (termCall t (.feed [97, 10, 98, 9])) (pageOf 80 [97, 10, 98, 9]) := by
  obtain ⟨t, ht⟩ : ∃ t, glyphTermCreate (small 80) (small 25) (small 8) (small 16) (small 0)
    (small 0) true = some t := ⟨_, rfl⟩
  have hplain : ∀ ch ∈ ([97, 10, 98, 9] : Bytes), Plain ch := by
    simp [Plain, newline, tab]
  exact ⟨t, ht, (scrollback_refines_iff (small 80) (small 25) (by decide) (by decide) (small 8) (small 16) (small 0)
    (small 0)).mpr (by decide) t ht _ hplain⟩

/-- With 65536 columns and as many rows of the ring and one, a letter in the first row is also seen
in the last row of the history. -/
theorem history_row_aliases : ∃ cols rows : CInt, 1 ≤ cols.val ∧ 1 ≤ rows.val ∧
    ∃ t, glyphTermCreate cols rows (small 8) (small 16) (small 0) (small 0) true = some t ∧ Plain 65 ∧
      ¬ Shows (termCall t (.feed [65])) (pageOf cols.val.toNat [65]) := by
  refine ⟨⟨65536, by decide, by decide⟩, ⟨65037, by decide, by decide⟩, by decide, by decide, _, rfl,
    by unfold Plain; decide, fun h => ?_⟩
  exact absurd (h.view 1 0 0 (by decide) (by decide) (by decide)) (by decide)

end Lorica.Proof.Glyph

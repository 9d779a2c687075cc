import Lorica.Framework.Decimal

/-!
# libglyph: `glyph_term.c`

The core of the terminal: the ring of rows, the parser of escape sequences, resizing and the
view into the history. An `int` is an integer, and sums and products that may leave its range
are wrapped. The cells are a function of their place in the array; `touched` is not in the
source: it records each cell that is read or written, with the size of the grid at that time.
Selections, drawing and the pty are left out.
-/

namespace Lorica.Impl.Glyph

open List

/-- An `int`. -/
structure CInt where
  val : Int
  low : -2 ^ 31 ≤ val
  high : val < 2 ^ 31

/-- Current or stored colours and attributes. -/
structure Pen where
  fg : Nat
  bg : Nat
  attrs : Nat
deriving DecidableEq

/-- `glyph_term_cell_t`. -/
structure Cell where
  ch : UInt8
  pen : Pen
deriving DecidableEq

def termDefaultColor : Nat := 0xFFFFFFFF
def attrBold : Nat := 0x01
def attrUnderline : Nat := 0x04
def attrReverse : Nat := 0x08
def scrollbackLines : Int := 500

def defaultPen : Pen := ⟨termDefaultColor, termDefaultColor, 0⟩

def blank : Cell := ⟨space, defaultPen⟩

/-- A new array, whose cells are zero but for the first `n`. -/
def newCells (n : Int) : Int → Cell := fun k => if 0 ≤ k ∧ k < n then blank else ⟨0, ⟨0, 0, 0⟩⟩

/-- A cell that was read or written, and the size of the grid. -/
structure Access where
  row : Int
  col : Int
  totalRows : Int
  cols : Int
deriving DecidableEq

/-- `esc_state`. -/
inductive EscState
  | normal
  | esc
  | csi
  | osc
  /-- an escape in an OSC string -/
  | oscEsc
deriving DecidableEq

/-- `glyph_term_t`. -/
structure Term where
  cols : Int
  rows : Int
  cx : Int
  cy : Int
  cellW : Int
  cellH : Int
  grid : Int → Cell
  pen : Pen
  totalRows : Int
  scrollTop : Int
  scrollOffset : Int
  escState : EscState
  escParams : List Int
  escNparam : Nat
  escPrivate : Bool
  cursorVisible : Bool
  savedCx : Int
  savedCy : Int
  padX : Int
  padY : Int
  /-- `osc_buf` up to `osc_len` -/
  oscBuf : Bytes
  admin : Bool
  adminChanged : Bool
  fontPx : Int
  scrollback : Int
  touched : List Access

/-! ## Cells -/

/-- The place of a cell in the array. -/
def place (cols row col : Int) : Int := wrap32 (wrap32 (row * cols) + col)

/-- The row of the ring for a row that is counted from the first visible one. -/
def ringRow (t : Term) (v : Int) : Int :=
  let r := (wrap32 (t.scrollTop + v)).tmod t.totalRows
  if r < 0 then r + t.totalRows else r

/-- The same for a view that is scrolled back. -/
def viewRow (t : Term) (v : Int) : Int :=
  let r := (wrap32 (t.scrollTop - t.scrollOffset + v)).tmod t.totalRows
  if r < 0 then r + t.totalRows else r

/-- `*grid_cell(tp, vis_row, col)`. -/
def gridCell (t : Term) (v col : Int) : Cell := t.grid (place t.cols (viewRow t v) col)

def setCell (g : Int → Cell) (k : Int) (c : Cell) : Int → Cell := fun j => if j = k then c else g j

/-- Write the cell of a row and a column, which stands at the place `k`. -/
def write (t : Term) (k row col : Int) (c : Cell) : Term :=
  { t with
    grid := setCell t.grid k c
    touched := ⟨row, col, t.totalRows, t.cols⟩ :: t.touched }

/-- `*grid_cell_abs(tp, vis_row, col) = c`. -/
def writeAbs (t : Term) (v col : Int) (c : Cell) : Term :=
  write t (place t.cols (ringRow t v) col) (ringRow t v) col c

/-- The loop over the columns of a row, from `start` on. -/
def blankCols (t : Term) (v start : Int) : Term :=
  (range (t.cols - start).toNat).foldl (fun t (i : Nat) => writeAbs t v (start + i) blank) t

/-- The loop over the rows, from `start` on. -/
def blankRows (t : Term) (start : Int) : Term :=
  (range (t.rows - start).toNat).foldl (fun t (i : Nat) => blankCols t (start + i) 0) t

/-- `term_scroll`. -/
def termScroll (t : Term) : Term :=
  let scrollTop := (wrap32 (t.scrollTop + 1)).tmod t.totalRows
  let newBottom := (wrap32 (scrollTop + t.rows - 1)).tmod t.totalRows
  let t := { t with scrollTop }
  let t := (range t.cols.toNat).foldl (fun t (i : Nat) => write t (place t.cols newBottom 0 + i) newBottom i blank) t
  { t with cy := t.rows - 1 }

/-- The next line, where the last one scrolls. -/
def nextLine (t : Term) : Term :=
  let t := { t with cy := wrap32 (t.cy + 1) }
  if t.cy ≥ t.rows then termScroll t else t

/-- A character at the cursor. -/
def putChar (t : Term) (ch : UInt8) (pen : Pen) : Term :=
  let t := writeAbs t t.cy t.cx ⟨ch, pen⟩
  let t := { t with cx := wrap32 (t.cx + 1) }
  if t.cx ≥ t.cols then nextLine { t with cx := 0 } else t

/-- One round of the loop of `glyph_term_puts`. -/
def putsByte (t : Term) (ch : UInt8) : Term :=
  if ch = newline then nextLine { t with cx := 0 }
  else if 32 ≤ ch ∧ ch ≤ 126 then putChar t ch defaultPen
  else t

/-! ## Escape sequences -/

/-- `TERM_PAL`. -/
def termPal (idx : Int) : Nat := 0x01000000 + idx.toNat

/-- The low byte of a parameter. -/
def lowByte (i : Int) : Nat := (i % 256).toNat

/-- A colour of three parameters. -/
def rgb (r g b : Int) : Nat := lowByte r * 2 ^ 16 + lowByte g * 2 ^ 8 + lowByte b

/-- The loop of `SGR`; `i` is `pi`, and `n` is `esc_nparam`. -/
def sgr (params : List Int) (n i : Nat) (pen : Pen) : Pen :=
  if i < n then
    let p := params.getD i 0
    let bold := pen.attrs &&& attrBold ≠ 0
    if p = 0 then sgr params n (i + 1) defaultPen
    else if p = 1 then sgr params n (i + 1) { pen with attrs := pen.attrs ||| attrBold }
    else if p = 4 then sgr params n (i + 1) { pen with attrs := pen.attrs ||| attrUnderline }
    else if p = 7 then sgr params n (i + 1) { pen with attrs := pen.attrs ||| attrReverse }
    else if p = 22 then sgr params n (i + 1) { pen with attrs := pen.attrs &&& (0xFF - attrBold) }
    else if p = 24 then sgr params n (i + 1) { pen with attrs := pen.attrs &&& (0xFF - attrUnderline) }
    else if p = 27 then sgr params n (i + 1) { pen with attrs := pen.attrs &&& (0xFF - attrReverse) }
    else if 30 ≤ p ∧ p ≤ 37 then
      sgr params n (i + 1) { pen with fg := termPal (if bold then p - 30 + 8 else p - 30) }
    else if p = 39 then sgr params n (i + 1) { pen with fg := termDefaultColor }
    else if 40 ≤ p ∧ p ≤ 47 then sgr params n (i + 1) { pen with bg := termPal (p - 40) }
    else if p = 49 then sgr params n (i + 1) { pen with bg := termDefaultColor }
    else if 90 ≤ p ∧ p ≤ 97 then sgr params n (i + 1) { pen with fg := termPal (p - 90 + 8) }
    else if 100 ≤ p ∧ p ≤ 107 then sgr params n (i + 1) { pen with bg := termPal (p - 100 + 8) }
    else if p = 38 ∧ i + 2 < n ∧ params.getD (i + 1) 0 = 5 then
      let idx := params.getD (i + 2) 0
      sgr params n (i + 3) (if 0 ≤ idx ∧ idx < 256 then { pen with fg := termPal idx } else pen)
    else if p = 48 ∧ i + 2 < n ∧ params.getD (i + 1) 0 = 5 then
      let idx := params.getD (i + 2) 0
      sgr params n (i + 3) (if 0 ≤ idx ∧ idx < 256 then { pen with bg := termPal idx } else pen)
    else if p = 38 ∧ i + 4 < n ∧ params.getD (i + 1) 0 = 2 then
      sgr params n (i + 5)
        { pen with fg := rgb (params.getD (i + 2) 0) (params.getD (i + 3) 0) (params.getD (i + 4) 0) }
    else if p = 48 ∧ i + 4 < n ∧ params.getD (i + 1) 0 = 2 then
      sgr params n (i + 5)
        { pen with bg := rgb (params.getD (i + 2) 0) (params.getD (i + 3) 0) (params.getD (i + 4) 0) }
    else sgr params n (i + 1) pen
  else pen
termination_by n - i

/-- A parameter, or what stands for one that is missing. -/
def param (t : Term) (i : Nat) (missing : Int) : Int := if t.escNparam > i then t.escParams.getD i 0 else missing

def atLeastOne (n : Int) : Int := if n < 1 then 1 else n

def clampTo (i size : Int) : Int := if i ≥ size then size - 1 else i

/-- `term_csi`. -/
def termCsi (t : Term) (final : UInt8) : Term :=
  let n := param t 0 0
  if final = 65 then -- A
    let cy := wrap32 (t.cy - atLeastOne n)
    { t with cy := if cy < 0 then 0 else cy }
  else if final = 66 then -- B
    { t with cy := clampTo (wrap32 (t.cy + atLeastOne n)) t.rows }
  else if final = 67 then -- C
    { t with cx := clampTo (wrap32 (t.cx + atLeastOne n)) t.cols }
  else if final = 68 then -- D
    let cx := wrap32 (t.cx - atLeastOne n)
    { t with cx := if cx < 0 then 0 else cx }
  else if final = 72 ∨ final = 102 then -- H and f
    { t with
      cy := clampTo (atLeastOne (param t 0 1) - 1) t.rows
      cx := clampTo (atLeastOne (param t 1 1) - 1) t.cols }
  else if final = 74 then -- J
    if n = 2 then { blankRows t 0 with cx := 0, cy := 0 }
    else if n = 0 then blankRows (blankCols t t.cy t.cx) (t.cy + 1)
    else t
  else if final = 75 then -- K
    if n = 0 then blankCols t t.cy t.cx
    else if n = 2 then blankCols t t.cy 0
    else t
  else if final = 109 then -- m
    { t with pen := sgr t.escParams t.escNparam 0 (if t.escNparam = 0 then defaultPen else t.pen) }
  else if final = 104 ∧ t.escPrivate then -- h
    if n = 25 then { t with cursorVisible := true }
    else if n = 1049 then
      let t := { t with savedCx := t.cx, savedCy := t.cy }
      { blankRows t 0 with cx := 0, cy := 0 }
    else t
  else if final = 108 ∧ t.escPrivate then -- l
    if n = 25 then { t with cursorVisible := false }
    else if n = 1049 then
      let t := blankRows t 0
      { t with cx := t.savedCx, cy := t.savedCy }
    else t
  else t

/-- `term_osc`. -/
def termOsc (t : Term) : Term :=
  if t.oscBuf.take 10 ≠ ascii "777;admin;" then t
  else
    let admin := t.oscBuf.getD 10 0 ≠ 48 ∧ t.oscBuf.getD 10 0 ≠ 0
    if decide admin = t.admin then t else { t with admin := admin, adminChanged := true }

/-- A byte in a control sequence. -/
def csiByte (t : Term) (ch : UInt8) : Term :=
  if ch = 63 ∧ t.escNparam = 0 then { t with escPrivate := true }
  else if isDigit ch then
    let n := if t.escNparam = 0 then 1 else t.escNparam
    let v := wrap32 (t.escParams.getD (n - 1) 0 * 10 + (ch.toNat - 48))
    { t with escNparam := n, escParams := t.escParams.set (n - 1) v }
  else if ch = 59 then
    if t.escNparam < 8 then
      { t with escParams := t.escParams.set t.escNparam 0, escNparam := t.escNparam + 1 }
    else t
  else if 0x40 ≤ ch ∧ ch ≤ 0x7E then
    { termCsi t ch with escState := .normal, escPrivate := false }
  else { t with escState := .normal, escPrivate := false }

/-- A byte outside of escape sequences. -/
def normalByte (t : Term) (ch : UInt8) : Term :=
  if ch = 0x1B then { t with escState := .esc }
  else if ch = newline then nextLine t
  else if ch = cr then { t with cx := 0 }
  else if ch = 8 ∨ ch = 127 then (if t.cx > 0 then { t with cx := t.cx - 1 } else t)
  else if ch = tab then
    -- `& ~7`
    let x := wrap32 (t.cx + 8)
    let x := x - x % 8
    if x ≥ t.cols then nextLine { t with cx := 0 } else { t with cx := x }
  else if 32 ≤ ch ∧ ch ≤ 126 then putChar t ch t.pen
  else t

/-- One round of the loop of `glyph_term_feed`. -/
def feedByte (t : Term) (ch : UInt8) : Term :=
  match t.escState with
  | .esc =>
    if ch = 91 then
      { t with
        escState := .csi, escNparam := 0, escPrivate := false
        escParams := (t.escParams.set 0 0).set 1 0 }
    else if ch = 93 then { t with escState := .osc, oscBuf := [] }
    else { t with escState := .normal }
  | .osc =>
    if ch = 7 then { termOsc t with escState := .normal }
    else if ch = 0x1B then { t with escState := .oscEsc }
    else if t.oscBuf.length < 63 then { t with oscBuf := t.oscBuf ++ [ch] }
    else t
  | .oscEsc => { (if ch = 92 then termOsc t else t) with escState := .normal }
  | .csi => csiByte t ch
  | .normal => normalByte t ch

/-- New output is seen at the bottom. -/
def snap (t : Term) : Term := if t.scrollOffset > 0 then { t with scrollOffset := 0 } else t

/-! ## History -/

/-- `sb_set_from_y`, as the scrollbar is dragged. -/
def sbSetFromY (t : Term) (y : Int) : Term :=
  let trackH := wrap32 (t.rows * t.cellH)
  let total := wrap32 (scrollbackLines + t.rows)
  let thumbH := (wrap32 (t.rows * trackH)).tdiv total
  let thumbH := if thumbH < 16 then 16 else thumbH
  let usable := wrap32 (trackH - thumbH)
  if usable ≤ 0 then t
  else
    let relY := wrap32 (y - t.padY)
    let relY := if relY < 0 then 0 else relY
    let relY := if relY > trackH then trackH else relY
    let offset := (wrap32 (scrollbackLines * wrap32 (usable - relY))).tdiv usable
    let offset := if offset < 0 then 0 else offset
    let offset := if offset > scrollbackLines then scrollbackLines else offset
    { t with scrollOffset := offset }

/-- `glyph_term_scroll`. -/
def glyphTermScroll (t : Term) (direction : Int) : Term :=
  if direction > 0 then
    let offset := wrap32 (t.scrollOffset + 3)
    { t with scrollOffset := if offset > scrollbackLines then scrollbackLines else offset }
  else
    let offset := wrap32 (t.scrollOffset - 3)
    { t with scrollOffset := if offset < 0 then 0 else offset }

/-- `glyph_term_scroll_back`. -/
def glyphTermScrollBack (t : Term) (lines : Int) : Term :=
  let offset := wrap32 (t.scrollOffset + lines)
  let offset := if offset > scrollbackLines then scrollbackLines else offset
  { t with scrollOffset := if offset < 0 then 0 else offset }

/-! ## Creation and resizing -/

/-- `glyph_term_create`; `alloc` says whether there was memory. -/
def glyphTermCreate (cols rows cellW cellH padX padY : CInt) (alloc : Bool) : Option Term :=
  if alloc = false then none
  else some
    { cols := cols.val, rows := rows.val, cx := 0, cy := 0, cellW := cellW.val, cellH := cellH.val
      grid := newCells (wrap32 (wrap32 (rows.val + scrollbackLines) * cols.val)), pen := defaultPen
      totalRows := wrap32 (rows.val + scrollbackLines), scrollTop := 0, scrollOffset := 0
      escState := .normal, escParams := replicate 8 0, escNparam := 0, escPrivate := false
      cursorVisible := true, savedCx := 0, savedCy := 0, padX := padX.val, padY := padY.val
      oscBuf := [], admin := false, adminChanged := false, fontPx := 16
      scrollback := scrollbackLines, touched := [] }

/-- The cells that are kept, by row and column. -/
def overlap (cr cc : Int) : List (Nat × Nat) :=
  (range cr.toNat).flatMap fun r => (range cc.toNat).map fun c => (r, c)

/-- `glyph_term_resize`. -/
def glyphTermResize (t : Term) (cols rows cellW cellH fontPx : Int) (alloc : Bool) : Term :=
  if cols < 1 ∨ rows < 1 then t
  else if alloc = false then t
  else
    let newTotal := wrap32 (rows + t.scrollback)
    let kept := overlap (if rows < t.rows then rows else t.rows) (if cols < t.cols then cols else t.cols)
    let ng := kept.foldl (fun g k =>
      setCell g (place cols k.1 k.2) (t.grid (place t.cols (viewRow t k.1) 0 + k.2)))
      (newCells (wrap32 (newTotal * cols)))
    let reads := kept.map fun k => ⟨viewRow t k.1, k.2, t.totalRows, t.cols⟩
    let writes := kept.map fun k => ⟨k.1, k.2, newTotal, cols⟩
    { t with
      grid := ng, cols := cols, rows := rows, cellW := cellW, cellH := cellH
      fontPx := if fontPx < 1 then t.fontPx else fontPx
      totalRows := newTotal, scrollTop := 0, scrollOffset := 0
      cx := if t.cx ≥ cols then cols - 1 else t.cx
      cy := if t.cy ≥ rows then rows - 1 else t.cy
      touched := writes ++ reads ++ t.touched }

/-! ## Runs -/

/-- A call from outside; dragging the scrollbar is a call for each place of the pointer. -/
inductive TermCall
  | feed (data : Bytes)
  | puts (msg : Bytes)
  | resize (cols rows cellW cellH fontPx : CInt) (alloc : Bool)
  | scroll (direction : CInt)
  | scrollBack (lines : CInt)
  | drag (y : CInt)

def termCall (t : Term) : TermCall → Term
  | .feed data => data.foldl feedByte (snap t)
  | .puts msg => (cstr msg).foldl putsByte t
  | .resize cols rows cellW cellH fontPx alloc =>
    glyphTermResize t cols.val rows.val cellW.val cellH.val fontPx.val alloc
  | .scroll direction => glyphTermScroll t direction.val
  | .scrollBack lines => glyphTermScrollBack t lines.val
  | .drag y => sbSetFromY t y.val

end Lorica.Impl.Glyph

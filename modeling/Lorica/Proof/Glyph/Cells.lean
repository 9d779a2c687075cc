import Lorica.Impl.Glyph.Term

/-!
# The cells of the terminal

Whatever bytes arrive, the cursor stays in the grid and each cell that is touched is one of its
cells, as long as no sum of the cursor and a parameter leaves the `int`s and no cursor comes back
that was saved before the grid became smaller (`cells_in_grid`). Most functions only paint: they
change nothing but cells of the grid (`Paints`).
-/

namespace Lorica.Proof.Glyph

open Lorica.Impl.Glyph List

/-! ## Invariants -/

/-- The cell is in the grid. -/
structure Access.InGrid (a : Access) : Prop where
  row_nonneg : 0 ≤ a.row
  row_lt : a.row < a.totalRows
  col_nonneg : 0 ≤ a.col
  col_lt : a.col < a.cols

/-- The cursor, the ring and the view are in the grid, the parser in its buffers, and so was
each cell that was touched. -/
structure InGrid (t : Term) : Prop where
  cx_nonneg : 0 ≤ t.cx
  cx_lt : t.cx < t.cols
  cy_nonneg : 0 ≤ t.cy
  cy_lt : t.cy < t.rows
  scrollTop_nonneg : 0 ≤ t.scrollTop
  scrollTop_lt : t.scrollTop < t.totalRows
  scrollOffset_nonneg : 0 ≤ t.scrollOffset
  scrollOffset_le : t.scrollOffset ≤ t.scrollback
  escNparam_le : t.escNparam ≤ 8
  oscBuf_le : t.oscBuf.length ≤ 63
  touched : ∀ a ∈ t.touched, Access.InGrid a

/-- What is needed besides: sizes and parameters are `int`s, and the rows of the ring are those
of the screen and of the history. -/
structure Inv (t : Term) : Prop where
  inGrid : InGrid t
  cols_lt : t.cols < 2 ^ 31
  totalRows_lt : t.totalRows < 2 ^ 31
  totalRows_eq : t.totalRows = t.rows + t.scrollback
  scrollback_eq : t.scrollback = scrollbackLines
  params : ∀ p ∈ t.escParams, -2 ^ 31 ≤ p ∧ p < 2 ^ 31
  savedCx_nonneg : 0 ≤ t.savedCx
  savedCy_nonneg : 0 ≤ t.savedCy

section

variable {t t' t'' : Term}

/-! ## Painting -/

/-- Only cells have changed, and those of the grid. -/
structure Paints (t t' : Term) : Prop where
  same : t' = { t with grid := t'.grid, touched := t'.touched }
  touched : ∀ a ∈ t'.touched, a ∈ t.touched ∨ Access.InGrid a

theorem Paints.refl (t : Term) : Paints t t := ⟨rfl, fun _ ha => .inl ha⟩

theorem Paints.trans (h : Paints t t') (h' : Paints t' t'') : Paints t t'' := by
  refine ⟨?_, fun a ha => ?_⟩
  · rw [h'.same, h.same]
  · exact (h'.touched a ha).elim (h.touched a) .inr

theorem Paints.totalRows (h : Paints t t') : t'.totalRows = t.totalRows := by rw [h.same]

theorem Paints.cols (h : Paints t t') : t'.cols = t.cols := by rw [h.same]

theorem Paints.inv (h : Paints t t') (hi : Inv t) : Inv t' := by
  have htouched (a : Access) (ha : a ∈ t'.touched) : Access.InGrid a :=
    (h.touched a ha).elim (hi.inGrid.touched a) id
  rw [h.same]
  exact { hi with inGrid := { hi.inGrid with touched := htouched } }

theorem write_paints (k : Int) {row col : Int} (c : Cell) (hr : 0 ≤ row) (hr' : row < t.totalRows) (hc : 0 ≤ col)
    (hc' : col < t.cols) : Paints t (write t k row col c) := by
  refine ⟨rfl, fun a ha => ?_⟩
  rcases mem_cons.1 ha with rfl | ha
  · exact .inr ⟨hr, hr', hc, hc'⟩
  · exact .inl ha

/-- Many steps that paint. -/
theorem Paints.foldl {f : Term → Nat → Term} (is : List Nat)
    (hf : ∀ i ∈ is, ∀ t1, Paints t t1 → Paints t1 (f t1 i)) (h : Paints t t') : Paints t (is.foldl f t') := by
  induction is generalizing t' with
  | nil => exact h
  | cons i is ih =>
    exact ih (fun j hj => hf j (mem_cons_of_mem _ hj)) (h.trans (hf i mem_cons_self t' h))

/-- The remainder, made positive, is a row of the ring. -/
theorem ring_bounds {total : Int} (h : 0 < total) (x : Int) :
    0 ≤ (if x.tmod total < 0 then x.tmod total + total else x.tmod total) ∧
      (if x.tmod total < 0 then x.tmod total + total else x.tmod total) < total := by
  have hlt := Int.tmod_lt_of_pos x h
  have hgt := Int.lt_tmod_of_pos x h
  split <;> omega

section

variable (h : 0 < t.totalRows)

include h

theorem ringRow_bounds (v : Int) : 0 ≤ ringRow t v ∧ ringRow t v < t.totalRows :=
  ring_bounds h _

theorem viewRow_bounds (v : Int) : 0 ≤ viewRow t v ∧ viewRow t v < t.totalRows :=
  ring_bounds h _

theorem writeAbs_paints (v : Int) {col : Int} (c : Cell) (hc : 0 ≤ col) (hc' : col < t.cols) :
    Paints t (writeAbs t v col c) :=
  write_paints _ c (ringRow_bounds h v).1 (ringRow_bounds h v).2 hc hc'

theorem blankCols_paints (v : Int) {start : Int} (hs : 0 ≤ start) : Paints t (blankCols t v start) := by
  refine Paints.foldl _ (fun i hi t1 h1 => ?_) (Paints.refl t)
  have hi := mem_range.1 hi
  exact writeAbs_paints (by rw [h1.totalRows]; exact h) v blank (by omega) (by rw [h1.cols]; omega)

theorem blankRows_paints (start : Int) : Paints t (blankRows t start) := by
  refine Paints.foldl _ (fun i _ t1 h1 => ?_) (Paints.refl t)
  exact blankCols_paints (by rw [h1.totalRows]; exact h) _ le_rfl

end

/-! ## Cursor and lines -/

theorem inv_ite {c : Prop} [Decidable c] (h : c → Inv t) (h' : ¬ c → Inv t') : Inv (if c then t else t') := by
  split
  · exact h ‹_›
  · exact h' ‹_›

theorem Inv.totalRows_pos (hi : Inv t) : 0 < t.totalRows :=
  hi.inGrid.scrollTop_nonneg.trans_lt hi.inGrid.scrollTop_lt

theorem Inv.rows_lt (hi : Inv t) : t.rows + 500 < 2 ^ 31 := by
  have h := hi.totalRows_lt
  rw [hi.totalRows_eq, hi.scrollback_eq] at h
  exact h

theorem Inv.cursor (hi : Inv t) {x y : Int} (hx : 0 ≤ x) (hx' : x < t.cols) (hy : 0 ≤ y) (hy' : y < t.rows) :
    Inv { t with cx := x, cy := y } :=
  { hi with inGrid := { hi.inGrid with cx_nonneg := hx, cx_lt := hx', cy_nonneg := hy, cy_lt := hy' } }

theorem Inv.column (hi : Inv t) {x : Int} (hx : 0 ≤ x) (hx' : x < t.cols) : Inv { t with cx := x } :=
  hi.cursor hx hx' hi.inGrid.cy_nonneg hi.inGrid.cy_lt

theorem Inv.line (hi : Inv t) {y : Int} (hy : 0 ≤ y) (hy' : y < t.rows) : Inv { t with cy := y } :=
  hi.cursor hi.inGrid.cx_nonneg hi.inGrid.cx_lt hy hy'

/-- The last row after a scroll can be computed. -/
def ScrollFits (t : Term) : Prop := (t.scrollTop + 1).tmod t.totalRows + t.rows - 1 < 2 ^ 31

/-- What `term_scroll` does, apart from the cells. -/
theorem termScroll_paints (h : 0 < t.totalRows) {top bottom : Int}
    (htop : (wrap32 (t.scrollTop + 1)).tmod t.totalRows = top)
    (hbottom : (wrap32 (top + t.rows - 1)).tmod t.totalRows = bottom) (hb : 0 ≤ bottom) :
    Paints { t with scrollTop := top, cy := t.rows - 1 } (termScroll t) := by
  have hlt : bottom < t.totalRows := hbottom ▸ Int.tmod_lt_of_pos _ h
  have hfold : Paints { t with scrollTop := top } ((range t.cols.toNat).foldl
      (fun t (i : Nat) => write t (place t.cols bottom 0 + i) bottom i blank) { t with scrollTop := top }) := by
    refine Paints.foldl _ (fun i hi t1 h1 => ?_) (Paints.refl _)
    have hi := mem_range.1 hi
    exact write_paints _ blank hb (by rw [h1.totalRows]; exact hlt) (by omega)
      (by rw [h1.cols]; show (i : Int) < t.cols; omega)
  unfold termScroll
  rw [htop]
  dsimp only
  rw [hbottom]
  refine ⟨?_, hfold.touched⟩
  rw [hfold.same]

theorem termScroll_inv (hi : Inv t) (hs : ScrollFits t) (y : Int) : Inv (termScroll { t with cy := y }) := by
  have hpos := hi.totalRows_pos
  have hg := hi.inGrid
  have htotal := hi.totalRows_lt
  have hwrap : wrap32 (t.scrollTop + 1) = t.scrollTop + 1 :=
    wrap32_of_mem (by have := hg.scrollTop_nonneg; omega) (by have := hg.scrollTop_lt; omega)
  have htop : 0 ≤ (t.scrollTop + 1).tmod t.totalRows := Int.tmod_nonneg _ (by have := hg.scrollTop_nonneg; omega)
  have htop' := Int.tmod_lt_of_pos (t.scrollTop + 1) hpos
  have hlow : 0 ≤ (t.scrollTop + 1).tmod t.totalRows + t.rows - 1 := by
    have := hg.cy_nonneg; have := hg.cy_lt; omega
  have hwrap' : wrap32 ((t.scrollTop + 1).tmod t.totalRows + t.rows - 1) =
      (t.scrollTop + 1).tmod t.totalRows + t.rows - 1 :=
    wrap32_of_mem (by omega) hs
  have hpaint := termScroll_paints (t := { t with cy := y }) hpos (by rw [hwrap]) rfl
    (by rw [hwrap']; exact Int.tmod_nonneg _ hlow)
  refine hpaint.inv ?_
  have hnew : Inv { t with scrollTop := (t.scrollTop + 1).tmod t.totalRows } :=
    { hi with inGrid := { hi.inGrid with scrollTop_nonneg := htop, scrollTop_lt := htop' } }
  have hlast : 0 ≤ t.rows - 1 := by have := hg.cy_nonneg; have := hg.cy_lt; omega
  exact hnew.line hlast (Int.sub_one_lt_of_le le_rfl)

theorem nextLine_inv (hi : Inv t) (hs : t.rows ≤ t.cy + 1 → ScrollFits t) : Inv (nextLine t) := by
  have hg := hi.inGrid
  have hrows := hi.rows_lt
  have hwrap : wrap32 (t.cy + 1) = t.cy + 1 :=
    wrap32_of_mem (by have := hg.cy_nonneg; omega) (by have := hg.cy_lt; omega)
  unfold nextLine
  rw [hwrap]
  dsimp only
  split
  · rename_i h
    exact termScroll_inv hi (hs h) _
  · exact hi.line (by have := hg.cy_nonneg; omega) (by omega)

theorem putChar_inv (hi : Inv t) (hs : t.cols ≤ t.cx + 1 → t.rows ≤ t.cy + 1 → ScrollFits t) (ch : UInt8) (pen : Pen) :
    Inv (putChar t ch pen) := by
  have hg := hi.inGrid
  have hpaint := writeAbs_paints (t := t) hi.totalRows_pos t.cy ⟨ch, pen⟩ hg.cx_nonneg hg.cx_lt
  have hinv := hpaint.inv hi
  have hwrap : wrap32 (t.cx + 1) = t.cx + 1 :=
    wrap32_of_mem (by have := hg.cx_nonneg; omega) (by have := hg.cx_lt; have := hi.cols_lt; omega)
  unfold putChar
  dsimp only
  rw [show (writeAbs t t.cy t.cx ⟨ch, pen⟩).cx = t.cx from rfl, hwrap]
  split
  · rename_i h
    exact nextLine_inv (hinv.column le_rfl (hg.cx_nonneg.trans_lt hg.cx_lt)) (hs h)
  · rename_i h
    exact hinv.column (by have := hg.cx_nonneg; omega) (lt_of_not_ge h)

/-! ## Escape sequences -/

theorem Inv.param_range (hi : Inv t) (i : Nat) {missing : Int} (hm : -2 ^ 31 ≤ missing ∧ missing < 2 ^ 31) :
    -2 ^ 31 ≤ param t i missing ∧ param t i missing < 2 ^ 31 := by
  unfold param
  split
  · rw [getD_eq_getElem?_getD]
    cases h : t.escParams[i]? with
    | none => decide
    | some p => exact hi.params p (mem_of_getElem? h)
  · exact hm

theorem one_le_atLeastOne (n : Int) : 1 ≤ atLeastOne n := by
  unfold atLeastOne; split <;> omega

variable {n i size : Int} {ch : UInt8}

theorem atLeastOne_lt (h : n < 2 ^ 31) : atLeastOne n < 2 ^ 31 := by
  unfold atLeastOne; split <;> omega

theorem clampTo_bounds (hi : 0 ≤ i) (hs : 0 < size) : 0 ≤ clampTo i size ∧ clampTo i size < size := by
  unfold clampTo; split <;> omega

/-- Back by some cells, and not before the first. -/
theorem back_bounds (hi : 0 ≤ i) (hi' : i < size) (hs : size < 2 ^ 31) (hn : 1 ≤ n) (hn' : n < 2 ^ 31) :
    0 ≤ (if wrap32 (i - n) < 0 then 0 else wrap32 (i - n)) ∧
      (if wrap32 (i - n) < 0 then 0 else wrap32 (i - n)) < size := by
  rw [wrap32_of_mem (by omega) (by omega)]
  split <;> omega

/-- Forward by some cells, and not after the last, if the sum is an `int`. -/
theorem forward_bounds (hi : 0 ≤ i) (hs : 0 < size) (hn : 1 ≤ n) (hsum : i + n < 2 ^ 31) :
    0 ≤ clampTo (wrap32 (i + n)) size ∧ clampTo (wrap32 (i + n)) size < size := by
  rw [wrap32_of_mem (by omega) hsum]
  exact clampTo_bounds (by omega) hs

/-- A control sequence moves the cursor by no more than an `int` can hold, and brings back only a
cursor that is still in the grid. -/
structure CsiFits (t : Term) (final : UInt8) : Prop where
  down : final = 66 → t.cy + atLeastOne (param t 0 0) < 2 ^ 31
  right : final = 67 → t.cx + atLeastOne (param t 0 0) < 2 ^ 31
  restore : final = 108 → t.escPrivate = true → param t 0 0 = 1049 → t.savedCx < t.cols ∧ t.savedCy < t.rows

theorem Inv.origin (hi : Inv t) : Inv { t with cx := 0, cy := 0 } :=
  hi.cursor le_rfl (hi.inGrid.cx_nonneg.trans_lt hi.inGrid.cx_lt) le_rfl (hi.inGrid.cy_nonneg.trans_lt hi.inGrid.cy_lt)

theorem termCsi_inv (hi : Inv t) {final : UInt8} (hf : CsiFits t final) : Inv (termCsi t final) := by
  have hg := hi.inGrid
  have hcols : 0 < t.cols := hg.cx_nonneg.trans_lt hg.cx_lt
  have hrows : 0 < t.rows := hg.cy_nonneg.trans_lt hg.cy_lt
  have hrows' : t.rows < 2 ^ 31 := by have := hi.rows_lt; omega
  have hn : atLeastOne (param t 0 0) < 2 ^ 31 := atLeastOne_lt (hi.param_range 0 (by decide)).2
  have hn1 := one_le_atLeastOne (param t 0 0)
  have hpos := hi.totalRows_pos
  unfold termCsi
  refine inv_ite (fun _ => ?_) fun _ => ?_
  · have h := back_bounds hg.cy_nonneg hg.cy_lt hrows' hn1 hn
    exact hi.line h.1 h.2
  refine inv_ite (fun hfin => ?_) fun _ => ?_
  · have h := forward_bounds hg.cy_nonneg hrows hn1 (hf.down hfin)
    exact hi.line h.1 h.2
  refine inv_ite (fun hfin => ?_) fun _ => ?_
  · have h := forward_bounds hg.cx_nonneg hcols hn1 (hf.right hfin)
    exact hi.column h.1 h.2
  refine inv_ite (fun _ => ?_) fun _ => ?_
  · have h := back_bounds hg.cx_nonneg hg.cx_lt hi.cols_lt hn1 hn
    exact hi.column h.1 h.2
  refine inv_ite (fun _ => ?_) fun _ => ?_
  · have hr := one_le_atLeastOne (param t 0 1)
    have hc := one_le_atLeastOne (param t 1 1)
    have hy := clampTo_bounds (i := atLeastOne (param t 0 1) - 1) (by omega) hrows
    have hx := clampTo_bounds (i := atLeastOne (param t 1 1) - 1) (by omega) hcols
    exact hi.cursor hx.1 hx.2 hy.1 hy.2
  refine inv_ite (fun _ => ?_) fun _ => ?_
  · -- erase in the display
    refine inv_ite (fun _ => ?_) fun _ => inv_ite (fun _ => ?_) fun _ => hi
    · exact ((blankRows_paints hpos 0).inv hi).origin
    · have hinv := (blankCols_paints hpos t.cy hg.cx_nonneg).inv hi
      exact (blankRows_paints hinv.totalRows_pos _).inv hinv
  refine inv_ite (fun _ => ?_) fun _ => ?_
  · -- erase in the line
    refine inv_ite (fun _ => ?_) fun _ => inv_ite (fun _ => ?_) fun _ => hi
    · exact (blankCols_paints hpos t.cy hg.cx_nonneg).inv hi
    · exact (blankCols_paints hpos t.cy le_rfl).inv hi
  refine inv_ite (fun _ => ?_) fun _ => ?_
  · exact { hi with inGrid := { hi.inGrid with } }
  refine inv_ite (fun _ => ?_) fun _ => ?_
  · refine inv_ite (fun _ => ?_) fun _ => inv_ite (fun _ => ?_) fun _ => hi
    · exact { hi with inGrid := { hi.inGrid with } }
    · -- the cursor that is saved is in the grid
      have hsave : Inv { t with savedCx := t.cx, savedCy := t.cy } :=
        { hi with inGrid := { hi.inGrid with }, savedCx_nonneg := hg.cx_nonneg, savedCy_nonneg := hg.cy_nonneg }
      exact ((blankRows_paints hsave.totalRows_pos 0).inv hsave).origin
  refine inv_ite (fun hfin => ?_) fun _ => hi
  refine inv_ite (fun _ => ?_) fun _ => inv_ite (fun h1049 => ?_) fun _ => hi
  · exact { hi with inGrid := { hi.inGrid with } }
  · have hpaint := blankRows_paints (t := t) hpos 0
    have hinv := hpaint.inv hi
    obtain ⟨hx, hy⟩ := hf.restore hfin.1 hfin.2 h1049
    have hsame := hpaint.same
    refine hinv.cursor hinv.savedCx_nonneg ?_ hinv.savedCy_nonneg ?_
    · rw [hsame]; exact hx
    · rw [hsame]; exact hy

theorem Inv.setParam (hi : Inv t) {v : Int} (hv : -2 ^ 31 ≤ v ∧ v < 2 ^ 31) (i : Nat) :
    ∀ p ∈ t.escParams.set i v, -2 ^ 31 ≤ p ∧ p < 2 ^ 31 := by
  intro p hp
  rcases mem_or_eq_of_mem_set hp with hp | rfl
  · exact hi.params p hp
  · exact hv

/-- The parser has changed its state. -/
theorem Inv.parser (hi : Inv t) (e : EscState) (b : Bool) : Inv { t with escState := e, escPrivate := b } :=
  { hi with inGrid := { hi.inGrid with } }

theorem csiByte_inv (hi : Inv t) (hf : CsiFits t ch) : Inv (csiByte t ch) := by
  have hn := hi.inGrid.escNparam_le
  refine inv_ite (fun _ => ?_) fun _ => ?_
  · exact hi.parser t.escState true
  refine inv_ite (fun _ => ?_) fun _ => ?_
  · have hn' : (if t.escNparam = 0 then 1 else t.escNparam) ≤ 8 := by split <;> omega
    exact { hi with inGrid := { hi.inGrid with escNparam_le := hn' }, params := hi.setParam (wrap32_range _) _ }
  refine inv_ite (fun _ => ?_) fun _ => ?_
  · refine inv_ite (fun h8 => ?_) fun _ => hi
    exact { hi with inGrid := { hi.inGrid with escNparam_le := h8 }, params := hi.setParam (by decide) _ }
  refine inv_ite (fun _ => ?_) fun _ => ?_
  · exact (termCsi_inv hi hf).parser .normal false
  · exact hi.parser .normal false

/-! ## Bytes -/

/-- The byte is shown in the last column, or ends the line. -/
def EndsLine (t : Term) (ch : UInt8) : Prop := ch = newline ∨ (32 ≤ ch ∧ ch ≤ 126) ∧ t.cols ≤ t.cx + 1

/-- The tab is the last one of the line. -/
def TabEndsLine (t : Term) (ch : UInt8) : Prop := ch = tab ∧ t.cols ≤ t.cx + 8 - (t.cx + 8) % 8

/-- No sum that the byte needs leaves the `int`s, and no cursor is restored that is outside. -/
structure ByteFits (t : Term) (ch : UInt8) : Prop where
  csi : t.escState = .csi → CsiFits t ch
  tab : t.escState = .normal → ch = tab → t.cx + 8 < 2 ^ 31
  scroll : t.escState = .normal → EndsLine t ch ∨ TabEndsLine t ch → t.rows ≤ t.cy + 1 → ScrollFits t

theorem normalByte_inv (hi : Inv t) (htab : ch = tab → t.cx + 8 < 2 ^ 31)
    (hs : EndsLine t ch ∨ TabEndsLine t ch → t.rows ≤ t.cy + 1 → ScrollFits t) : Inv (normalByte t ch) := by
  have hg := hi.inGrid
  have hstart : Inv { t with cx := 0 } := hi.column le_rfl (hg.cx_nonneg.trans_lt hg.cx_lt)
  refine inv_ite (fun _ => ?_) fun _ => ?_
  · exact hi.parser .esc t.escPrivate
  refine inv_ite (fun hnl => ?_) fun _ => ?_
  · exact nextLine_inv hi (hs (.inl (.inl hnl)))
  refine inv_ite (fun _ => hstart) fun _ => ?_
  refine inv_ite (fun _ => ?_) fun _ => ?_
  · refine inv_ite (fun hpos => ?_) fun _ => hi
    exact hi.column (by omega) (by have := hg.cx_lt; omega)
  refine inv_ite (fun ht => ?_) fun _ => ?_
  · have hwrap : wrap32 (t.cx + 8) = t.cx + 8 := wrap32_of_mem (by have := hg.cx_nonneg; omega) (htab ht)
    rw [hwrap]
    refine inv_ite (fun hend => ?_) fun hin => ?_
    · exact nextLine_inv hstart (hs (.inr ⟨ht, hend⟩))
    · exact hi.column (by have := hg.cx_nonneg; omega) (lt_of_not_ge hin)
  refine inv_ite (fun hch => ?_) fun _ => hi
  exact putChar_inv hi (fun hend => hs (.inl (.inr ⟨hch, hend⟩))) ch t.pen

theorem termOsc_inv (hi : Inv t) : Inv (termOsc t) := by
  refine inv_ite (fun _ => hi) fun _ => inv_ite (fun _ => hi) fun _ => ?_
  exact { hi with inGrid := { hi.inGrid with } }

theorem feedByte_inv (hi : Inv t) (hf : ByteFits t ch) : Inv (feedByte t ch) := by
  unfold feedByte
  cases he : t.escState with
  | normal => exact normalByte_inv hi (hf.tab he) (hf.scroll he)
  | esc =>
    refine inv_ite (fun _ => ?_) fun _ => inv_ite (fun _ => ?_) fun _ => ?_
    · have hzero : (-2 : Int) ^ 31 ≤ 0 ∧ (0 : Int) < 2 ^ 31 := by decide
      have hfirst : Inv { t with escParams := t.escParams.set 0 0 } :=
        { hi with inGrid := { hi.inGrid with }, params := hi.setParam hzero 0 }
      exact { hi with
        inGrid := { hi.inGrid with escNparam_le := Nat.zero_le 8 }
        params := hfirst.setParam hzero 1 }
    · exact { hi with inGrid := { hi.inGrid with oscBuf_le := Nat.zero_le 63 } }
    · exact hi.parser .normal t.escPrivate
  | osc =>
    refine inv_ite (fun _ => ?_) fun _ => inv_ite (fun _ => ?_) fun _ => inv_ite (fun hlen => ?_) fun _ => hi
    · have hosc := termOsc_inv hi
      exact hosc.parser .normal (termOsc t).escPrivate
    · exact hi.parser .oscEsc t.escPrivate
    · have hlen' : (t.oscBuf ++ [ch]).length ≤ 63 := by
        rw [length_append]; exact hlen
      exact { hi with inGrid := { hi.inGrid with oscBuf_le := hlen' } }
  | oscEsc =>
    have hosc : Inv (if ch = 92 then termOsc t else t) := inv_ite (fun _ => termOsc_inv hi) fun _ => hi
    exact hosc.parser .normal _
  | csi => exact csiByte_inv hi (hf.csi he)

theorem putsByte_inv (hi : Inv t) (hs : EndsLine t ch → t.rows ≤ t.cy + 1 → ScrollFits t) :
    Inv (putsByte t ch) := by
  have hg := hi.inGrid
  refine inv_ite (fun hnl => ?_) fun _ => inv_ite (fun hch => ?_) fun _ => hi
  · exact nextLine_inv (hi.column le_rfl (hg.cx_nonneg.trans_lt hg.cx_lt)) (hs (.inl hnl))
  · exact putChar_inv hi (fun hend => hs (.inr ⟨hch, hend⟩)) ch defaultPen

/-! ## History and sizes -/

theorem Inv.offset (hi : Inv t) {k : Int} (hk : 0 ≤ k) (hk' : k ≤ 500) : Inv { t with scrollOffset := k } := by
  have hle : k ≤ t.scrollback := by rw [hi.scrollback_eq]; exact hk'
  exact { hi with inGrid := { hi.inGrid with scrollOffset_nonneg := hk, scrollOffset_le := hle } }

theorem snap_inv (hi : Inv t) : Inv (snap t) := by
  exact inv_ite (fun _ => hi.offset le_rfl (by decide)) fun _ => hi

theorem glyphTermScroll_inv (hi : Inv t) (direction : Int) : Inv (glyphTermScroll t direction) := by
  have hnn := hi.inGrid.scrollOffset_nonneg
  have hle : t.scrollOffset ≤ 500 := hi.inGrid.scrollOffset_le.trans hi.scrollback_eq.le
  unfold glyphTermScroll scrollbackLines
  rw [wrap32_of_mem (by omega) (by omega), wrap32_of_mem (by omega) (by omega)]
  refine inv_ite (fun _ => ?_) fun _ => ?_
  · exact hi.offset (by split <;> omega) (by split <;> omega)
  · exact hi.offset (by split <;> omega) (by split <;> omega)

theorem glyphTermScrollBack_inv (hi : Inv t) (lines : Int) : Inv (glyphTermScrollBack t lines) := by
  unfold glyphTermScrollBack scrollbackLines
  exact hi.offset (by split <;> split <;> omega) (by split <;> split <;> omega)

theorem cut_bounds (k : Int) :
    0 ≤ (if (if k < 0 then 0 else k) > scrollbackLines then scrollbackLines else if k < 0 then 0 else k) ∧
      (if (if k < 0 then 0 else k) > scrollbackLines then scrollbackLines else if k < 0 then 0 else k) ≤ 500 := by
  unfold scrollbackLines
  split <;> split <;> omega

/-- Wherever the pointer is, the offset is cut to the history. -/
theorem sbSetFromY_inv (hi : Inv t) (y : Int) : Inv (sbSetFromY t y) := by
  refine inv_ite (fun _ => hi) fun _ => ?_
  exact hi.offset (cut_bounds _).1 (cut_bounds _).2

theorem mem_overlap {cr cc : Int} {k : Nat × Nat} (h : k ∈ overlap cr cc) : (k.1 : Int) < cr ∧ (k.2 : Int) < cc := by
  obtain ⟨r, hr, hk⟩ := mem_flatMap.1 h
  obtain ⟨c, hc, rfl⟩ := mem_map.1 hk
  have hr := mem_range.1 hr
  have hc := mem_range.1 hc
  constructor
  · show (r : Int) < cr
    omega
  · show (c : Int) < cc
    omega

theorem glyphTermResize_inv (hi : Inv t) {cols rows : Int} (cellW cellH fontPx : Int) (alloc : Bool)
    (hc : cols < 2 ^ 31)
    (hr : 1 ≤ cols → 1 ≤ rows → alloc = true → rows + scrollbackLines < 2 ^ 31) :
    Inv (glyphTermResize t cols rows cellW cellH fontPx alloc) := by
  have hg := hi.inGrid
  refine inv_ite (fun _ => hi) fun hpos => inv_ite (fun _ => hi) fun halloc => ?_
  rw [not_or, not_lt, not_lt] at hpos
  have hsize := hr hpos.1 hpos.2 (by simpa using halloc)
  have htotal : wrap32 (rows + t.scrollback) = rows + 500 := by
    rw [hi.scrollback_eq]
    exact wrap32_of_mem (by unfold scrollbackLines; omega) hsize
  rw [htotal]
  refine ⟨⟨?_, ?_, ?_, ?_, le_rfl, ?_, le_rfl, hg.scrollOffset_nonneg.trans hg.scrollOffset_le,
    hg.escNparam_le, hg.oscBuf_le, ?_⟩,
    hc, hsize, ?_, hi.scrollback_eq, hi.params, hi.savedCx_nonneg, hi.savedCy_nonneg⟩
  · have := hg.cx_nonneg
    dsimp only
    split <;> omega
  · dsimp only
    split <;> omega
  · have := hg.cy_nonneg
    dsimp only
    split <;> omega
  · dsimp only
    split <;> omega
  · show (0 : Int) < rows + 500
    omega
  · intro a ha
    rcases mem_append.1 ha with ha | ha
    · rcases mem_append.1 ha with ha | ha
      · -- cells of the new grid
        obtain ⟨k, hk, rfl⟩ := mem_map.1 ha
        obtain ⟨hkr, hkc⟩ := mem_overlap hk
        refine ⟨Int.natCast_nonneg _, ?_, Int.natCast_nonneg _, ?_⟩
        · show (k.1 : Int) < rows + 500
          split at hkr <;> omega
        · show (k.2 : Int) < cols
          split at hkc <;> omega
      · -- cells of the old one
        obtain ⟨k, hk, rfl⟩ := mem_map.1 ha
        obtain ⟨-, hkc⟩ := mem_overlap hk
        have hrow := viewRow_bounds hi.totalRows_pos k.1
        refine ⟨hrow.1, hrow.2, Int.natCast_nonneg _, ?_⟩
        show (k.2 : Int) < t.cols
        split at hkc <;> omega
    · exact hg.touched a ha
  · show rows + 500 = rows + t.scrollback
    rw [hi.scrollback_eq]
    rfl

end

/-! ## Runs -/

/-- The steps of calls, byte by byte. -/
inductive Step
  | snap
  | feed (ch : UInt8)
  | puts (ch : UInt8)
  | resize (cols rows cellW cellH fontPx : CInt) (alloc : Bool)
  | scroll (direction : CInt)
  | scrollBack (lines : CInt)
  | drag (y : CInt)

def step (t : Term) : Step → Term
  | .snap => snap t
  | .feed ch => feedByte t ch
  | .puts ch => putsByte t ch
  | .resize cols rows cellW cellH fontPx alloc =>
    glyphTermResize t cols.val rows.val cellW.val cellH.val fontPx.val alloc
  | .scroll direction => glyphTermScroll t direction.val
  | .scrollBack lines => glyphTermScrollBack t lines.val
  | .drag y => sbSetFromY t y.val

def steps : TermCall → List Step
  | .feed data => .snap :: data.map .feed
  | .puts msg => (cstr msg).map .puts
  | .resize cols rows cellW cellH fontPx alloc => [.resize cols rows cellW cellH fontPx alloc]
  | .scroll direction => [.scroll direction]
  | .scrollBack lines => [.scrollBack lines]
  | .drag y => [.drag y]

/-- No sum that the step needs leaves the `int`s, and no cursor is restored that is outside. -/
def StepFits (t : Term) : Step → Prop
  | .feed ch => ByteFits t ch
  | .puts ch => EndsLine t ch → t.rows ≤ t.cy + 1 → ScrollFits t
  | .resize cols rows _ _ _ alloc => 1 ≤ cols.val → 1 ≤ rows.val → alloc = true → rows.val + scrollbackLines < 2 ^ 31
  | _ => True

variable {t : Term}

theorem step_inv (hi : Inv t) {s : Step} (hf : StepFits t s) : Inv (step t s) := by
  cases s with
  | snap => exact snap_inv hi
  | feed ch => exact feedByte_inv hi hf
  | puts ch => exact putsByte_inv hi hf
  | resize cols rows cellW cellH fontPx alloc => exact glyphTermResize_inv hi _ _ _ alloc cols.high hf
  | scroll direction => exact glyphTermScroll_inv hi _
  | scrollBack lines => exact glyphTermScrollBack_inv hi _
  | drag y => exact sbSetFromY_inv hi _

/-- All steps fit, each in the state it is taken in. -/
def Fitting : Term → List Step → Prop
  | _, [] => True
  | t, s :: ss => StepFits t s ∧ Fitting (step t s) ss

/-- The terminal is in its grid before and after each step. -/
def Throughout : Term → List Step → Prop
  | t, [] => InGrid t
  | t, s :: ss => InGrid t ∧ Throughout (step t s) ss

theorem Inv.throughout (hi : Inv t) {ss : List Step} (h : Fitting t ss) : Throughout t ss := by
  induction ss generalizing t with
  | nil => exact hi.inGrid
  | cons s ss ih => exact ⟨hi.inGrid, ih (step_inv hi h.1) h.2⟩

theorem inv_of_create {cols rows cellW cellH padX padY : CInt} {alloc : Bool} (hc : 1 ≤ cols.val)
    (hr : 1 ≤ rows.val) (hsize : rows.val + scrollbackLines < 2 ^ 31)
    (ht : glyphTermCreate cols rows cellW cellH padX padY alloc = some t) : Inv t := by
  unfold glyphTermCreate at ht
  split at ht
  · cases ht
  cases ht
  have htotal : wrap32 (rows.val + scrollbackLines) = rows.val + scrollbackLines :=
    wrap32_of_mem (by unfold scrollbackLines; omega) hsize
  rw [htotal]
  have hring : 0 < rows.val + scrollbackLines := by unfold scrollbackLines; omega
  have hhistory : (0 : Int) ≤ scrollbackLines := by decide
  have hparams : ∀ p ∈ replicate 8 (0 : Int), -2 ^ 31 ≤ p ∧ p < 2 ^ 31 := by decide
  exact ⟨⟨le_rfl, hc, le_rfl, hr, le_rfl, hring, le_rfl, hhistory, Nat.zero_le 8, Nat.zero_le 63, by simp⟩,
    cols.high, hsize, rfl, rfl, hparams, le_rfl, le_rfl⟩

/-- In every run of a new terminal whose steps fit, the terminal is in its grid before and after
each byte and each other call, and each cell that was touched until then was in the grid. -/
theorem cells_in_grid {cols rows cellW cellH padX padY : CInt} {alloc : Bool} {t : Term} (hc : 1 ≤ cols.val)
    (hr : 1 ≤ rows.val) (hsize : rows.val + scrollbackLines < 2 ^ 31)
    (ht : glyphTermCreate cols rows cellW cellH padX padY alloc = some t) (calls : List TermCall)
    (h : Fitting t (calls.flatMap steps)) : Throughout t (calls.flatMap steps) :=
  (inv_of_create hc hr hsize ht).throughout h

/-! ## Samples -/

instance (t : Term) (ch : UInt8) : Decidable (EndsLine t ch) := inferInstanceAs (Decidable (_ ∨ _))

instance (t : Term) (ch : UInt8) : Decidable (TabEndsLine t ch) := inferInstanceAs (Decidable (_ ∧ _))

instance (t : Term) : Decidable (ScrollFits t) := inferInstanceAs (Decidable (_ < _))

instance (t : Term) (ch : UInt8) : Decidable (CsiFits t ch) :=
  decidable_of_iff ((ch = 66 → t.cy + atLeastOne (param t 0 0) < 2 ^ 31) ∧
      (ch = 67 → t.cx + atLeastOne (param t 0 0) < 2 ^ 31) ∧
      (ch = 108 → t.escPrivate = true → param t 0 0 = 1049 → t.savedCx < t.cols ∧ t.savedCy < t.rows))
    ⟨fun h => ⟨h.1, h.2.1, h.2.2⟩, fun h => ⟨h.down, h.right, h.restore⟩⟩

instance (t : Term) (ch : UInt8) : Decidable (ByteFits t ch) :=
  decidable_of_iff ((t.escState = .csi → CsiFits t ch) ∧ (t.escState = .normal → ch = tab → t.cx + 8 < 2 ^ 31) ∧
      (t.escState = .normal → EndsLine t ch ∨ TabEndsLine t ch → t.rows ≤ t.cy + 1 → ScrollFits t))
    ⟨fun h => ⟨h.1, h.2.1, h.2.2⟩, fun h => ⟨h.csi, h.tab, h.scroll⟩⟩

instance (t : Term) : (s : Step) → Decidable (StepFits t s)
  | .feed ch => inferInstanceAs (Decidable (ByteFits t ch))
  | .puts ch => inferInstanceAs (Decidable (EndsLine t ch → t.rows ≤ t.cy + 1 → ScrollFits t))
  | .resize cols rows _ _ _ alloc => inferInstanceAs
    (Decidable (1 ≤ cols.val → 1 ≤ rows.val → alloc = true → rows.val + scrollbackLines < 2 ^ 31))
  | .snap | .scroll _ | .scrollBack _ | .drag _ => inferInstanceAs (Decidable True)

instance decidableFitting : (t : Term) → (ss : List Step) → Decidable (Fitting t ss)
  | _, [] => inferInstanceAs (Decidable True)
  | t, s :: ss =>
    have := decidableFitting (step t s) ss
    inferInstanceAs (Decidable (StepFits t s ∧ Fitting (step t s) ss))

/-- A small `int`. -/
def small (n : UInt8) : CInt := ⟨n.toNat, by omega, by have := n.toNat_lt; omega⟩

/-- Text over the last line, a tab, a control sequence, a smaller grid and the history. -/
def sampleCalls : List TermCall :=
  [.puts (ascii "no pty\n"), .feed (ascii "one\ntwo\tthree\x1b[2;9H\x1b[K\x1b[31mred"),
    .resize (small 5) (small 2) (small 8) (small 16) (small 16) true, .scroll (small 1), .drag (small 3),
    .feed (ascii "more\n")]

theorem cells_in_grid_sample :
    ∃ t, glyphTermCreate (small 12) (small 3) (small 8) (small 16) (small 0) (small 0) true = some t ∧
    Fitting t (sampleCalls.flatMap steps) ∧ Throughout t (sampleCalls.flatMap steps) := by
  obtain ⟨t, ht⟩ : ∃ t, glyphTermCreate (small 12) (small 3) (small 8) (small 16) (small 0)
    (small 0) true = some t := ⟨_, rfl⟩
  have hfit : Fitting t (sampleCalls.flatMap steps) := by
    cases ht
    decide +kernel
  exact ⟨t, ht, hfit, cells_in_grid (by decide) (by decide) (by decide) ht sampleCalls hfit⟩

theorem Throughout.last {ss : List Step} (h : Throughout t ss) : InGrid (ss.foldl step t) := by
  induction ss generalizing t with
  | nil => exact h
  | cons s ss ih => exact ih h.2

/-- The cursor is saved in the eighth column, and restored when there are four. -/
def shrinkCalls : List TermCall :=
  [.feed (ascii "01234567\x1b[?1049h"), .resize (small 4) (small 2) (small 8) (small 16) (small 16) true,
    .feed (ascii "\x1b[?1049l")]

/-- From the second line down by the highest `int`. -/
def downCalls : List TermCall := [.feed (ascii "\n\x1b[2147483647B")]

theorem cells_out_of_grid :
    ∃ t, glyphTermCreate (small 12) (small 3) (small 8) (small 16) (small 0) (small 0) true = some t ∧
    ¬ Throughout t (shrinkCalls.flatMap steps) ∧ ¬ Throughout t (downCalls.flatMap steps) := by
  refine ⟨_, rfl, fun h => ?_, fun h => ?_⟩
  · exact absurd h.last.cx_lt (by decide +kernel)
  · exact absurd h.last.cy_nonneg (by decide +kernel)

end Lorica.Proof.Glyph

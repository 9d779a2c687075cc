import Lorica.Proof.Glyph.Scrollback

/-!
# Resizing the terminal

`glyph_term_resize` copies what the view shows, which is the live screen moved up by `scroll_offset`
rows: the live screen is kept just if the two have the same cells where the sizes overlap
(`resize_keeps_iff`).
-/

namespace Lorica.Proof.Glyph

open Lorica.Impl.Glyph Lorica.Ring List

/-- The cell that the output path addresses. -/
def liveCell (t : Term) (v c : Int) : Cell := t.grid (place t.cols (ringRow t v) c)

/-- The cell `c` places behind the first one of a row. -/
def rowCell (t : Term) (v c : Int) : Cell := t.grid (place t.cols (ringRow t v) 0 + c)

/-- The cell is on the screen and in the new size. -/
def Shared (t : Term) (cols rows v c : Int) : Prop :=
  (0 ≤ v ∧ v < rows ∧ v < t.rows) ∧ 0 ≤ c ∧ c < cols ∧ c < t.cols

/-- The screen of `t` has been kept in a new grid, and the rest of that is blank. -/
structure Kept (t : Term) (cols rows : Int) (t' : Term) : Prop where
  size : t'.cols = cols ∧ t'.rows = rows
  live : ∀ v c, Shared t cols rows v c → liveCell t' v c = liveCell t v c
  blank : ∀ v c, 0 ≤ v → v < rows + t.scrollback → 0 ≤ c → c < cols → ¬ Shared t cols rows v c →
    liveCell t' v c = blank
  cursor : Shared t cols rows t.cy t.cx → t'.cy = t.cy ∧ t'.cx = t.cx

section

variable {t : Term} {cols rows total v c : Int}

theorem place_eq_index (hcells : total * cols < 2 ^ 31) (hv : 0 ≤ v) (hv' : v < total) (hc : 0 ≤ c) (hc' : c < cols) :
    place cols v c = index total cols v c := by
  rw [place_eq hcells hv hv' hc hc', index, Int.emod_eq_of_lt hv hv']

/-- A copy in which each cell has a place of its own. -/
theorem foldl_setCell {κ : Type} [DecidableEq κ] (f : κ → Int) (val : κ → Cell) (k : κ) (ks : List κ)
    (hinj : ∀ j ∈ ks, f k = f j → k = j) (g : Int → Cell) :
    ks.foldl (fun g j => setCell g (f j) (val j)) g (f k) = if k ∈ ks then val k else g (f k) := by
  induction ks generalizing g with
  | nil => rfl
  | cons j ks ih =>
    rw [foldl_cons, ih fun i hi => hinj i (mem_cons_of_mem j hi)]
    by_cases hks : k ∈ ks
    · rw [if_pos hks, if_pos (mem_cons_of_mem j hks)]
    by_cases hj : k = j
    · subst hj
      simp [setCell]
    · have hf : f k ≠ f j := fun h => hj (hinj j mem_cons_self h)
      simp [setCell, hj, hf]

theorem shared_iff_mem (hv : 0 ≤ v) (hc : 0 ≤ c) : Shared t cols rows v c ↔
    (v.toNat, c.toNat) ∈ overlap (if rows < t.rows then rows else t.rows) (if cols < t.cols then cols else t.cols) := by
  simp only [overlap, mem_flatMap, mem_range, mem_map, Prod.mk.injEq, Shared]
  constructor
  · rintro ⟨hrow, hcol⟩
    exact ⟨v.toNat, by split <;> omega, c.toNat, by split <;> omega, rfl, rfl⟩
  · rintro ⟨r, hr, d, hd, hrv, hdc⟩
    split at hr <;> split at hd <;> omega

theorem viewRow_eq (t : Term) (v : Int) : viewRow t v = ringRow t (v - t.scrollOffset) := by
  unfold viewRow ringRow
  rw [show t.scrollTop - t.scrollOffset + v = t.scrollTop + (v - t.scrollOffset) by omega]

/-- The cells of the new grid. -/
theorem liveCell_resize (cellW cellH fontPx : Int) (hr : 1 ≤ rows) (hsb : 0 ≤ t.scrollback)
    (hfits : (rows + t.scrollback) * cols < 2 ^ 31) (hv : 0 ≤ v) (hv' : v < rows + t.scrollback) (hc : 0 ≤ c)
    (hc' : c < cols) [Decidable (Shared t cols rows v c)] :
    liveCell (glyphTermResize t cols rows cellW cellH fontPx true) v c =
      if Shared t cols rows v c then rowCell t (v - t.scrollOffset) c else blank := by
  have htotal : rows + t.scrollback < 2 ^ 31 := (le_mul_of_one_le_right (by omega) (by omega)).trans_lt hfits
  have hplace := place_eq_index hfits hv hv' hc hc'
  have hbounds := index_bounds (l := v) (by omega : 0 < rows + t.scrollback) hc hc'
  have hrow : (wrap32 (0 + v)).tmod (rows + t.scrollback) = v := by
    rw [zero_add, wrap32_of_mem (by omega) (by omega), Int.tmod_eq_of_lt hv hv']
  unfold liveCell ringRow glyphTermResize
  rw [if_neg (by omega), if_neg (by decide), wrap32_of_mem (by omega) htotal]
  simp only [viewRow_eq]
  rw [hrow, if_neg (show ¬ v < 0 by omega), wrap32_of_mem (by omega) hfits]
  have hcopy := foldl_setCell (fun k : Nat × Nat => place cols k.1 k.2)
    (fun k => rowCell t (k.1 - t.scrollOffset) k.2) (v.toNat, c.toNat)
    (overlap (if rows < t.rows then rows else t.rows) (if cols < t.cols then cols else t.cols)) (fun j hj heq => ?_)
    (newCells ((rows + t.scrollback) * cols))
  · simp only [Int.toNat_of_nonneg hv, Int.toNat_of_nonneg hc] at hcopy
    refine hcopy.trans ?_
    simp only [← shared_iff_mem hv hc]
    rw [newCells, hplace, if_pos hbounds]
  · obtain ⟨hjr, hjc⟩ := mem_overlap hj
    rw [Int.toNat_of_nonneg hv, Int.toNat_of_nonneg hc, hplace,
      place_eq_index hfits (Int.natCast_nonneg _) (by split at hjr <;> omega) (Int.natCast_nonneg _)
        (by split at hjc <;> omega)] at heq
    have hinj := index_inj (b := 0) hv (by omega) (Int.natCast_nonneg _) (by split at hjr <;> omega) hc hc'
      (Int.natCast_nonneg _) (by split at hjc <;> omega) heq
    exact Prod.ext (by show v.toNat = j.1; omega) (by show c.toNat = j.2; omega)

/-- When a resize to a size whose cells can be counted keeps the live screen: if the rows that are
`scroll_offset` above have the same cells. -/
theorem resize_keeps_iff (t : Term) (cols rows cellW cellH fontPx : Int) (hc : 1 ≤ cols) (hr : 1 ≤ rows)
    (hsb : 0 ≤ t.scrollback) (hfits : (rows + t.scrollback) * cols < 2 ^ 31) :
    Kept t cols rows (glyphTermResize t cols rows cellW cellH fontPx true) ↔
      ∀ v c, Shared t cols rows v c → rowCell t (v - t.scrollOffset) c = liveCell t v c := by
  classical
  have hlive {v c : Int} (h : Shared t cols rows v c) :
      liveCell (glyphTermResize t cols rows cellW cellH fontPx true) v c = rowCell t (v - t.scrollOffset) c := by
    have ⟨⟨hv, hv', _⟩, hc, hc', _⟩ := h
    rw [liveCell_resize cellW cellH fontPx hr hsb hfits hv (by omega) hc hc', if_pos h]
  constructor
  · intro hkept v c h
    rw [← hlive h]
    exact hkept.live v c h
  · intro hshown
    refine ⟨?_, fun v c h => (hlive h).trans (hshown v c h), fun v c hv hv' hc hc' h => ?_, fun h => ?_⟩
    · unfold glyphTermResize
      rw [if_neg (by omega)]
      exact ⟨rfl, rfl⟩
    · rw [liveCell_resize cellW cellH fontPx hr hsb hfits hv hv' hc hc', if_neg h]
    · obtain ⟨⟨-, hv, -⟩, -, hc, -⟩ := h
      unfold glyphTermResize
      rw [if_neg (by omega)]
      exact ⟨if_neg (by omega), if_neg (by omega)⟩

/-- If the cells can be counted, those of a row stand one behind the other. -/
theorem rowCell_eq (hi : Inv t) (hcells : t.totalRows * t.cols < 2 ^ 31) (v : Int) (hc : 0 ≤ c) (hc' : c < t.cols) :
    rowCell t v c = liveCell t v c := by
  have hrow := ringRow_bounds hi.totalRows_pos v
  unfold rowCell liveCell
  rw [place_eq hcells hrow.1 hrow.2 hc hc', place_eq hcells hrow.1 hrow.2 le_rfl (by omega), Int.add_zero]

end

/-- A terminal of four columns and two rows. -/
def tiny : Term := (glyphTermCreate (small 4) (small 2) (small 8) (small 16) (small 0) (small 0) true).get rfl

theorem resize_keeps_letter : Kept (feedByte tiny 97) 3 5 (glyphTermResize (feedByte tiny 97) 3 5 8 16 16 true) := by
  have hcreate : glyphTermCreate (small 4) (small 2) (small 8) (small 16) (small 0) (small 0) true = some tiny := rfl
  have hnew : Inv tiny := inv_of_create (by decide) (by decide) (by decide) hcreate
  have hfed : Inv (feedByte tiny 97) := step_inv hnew (s := .feed 97) (by decide)
  refine (resize_keeps_iff _ 3 5 8 16 16 (by decide) (by decide) (by decide) (by decide)).mpr ?_
  rintro v c ⟨-, hc, -, hc'⟩
  rw [rowCell_eq hfed (by decide) _ hc hc', show (feedByte tiny 97).scrollOffset = 0 from rfl, Int.sub_zero]

/-- Of a view that is scrolled back by one line, a line of the history is copied, and the live screen is lost. -/
theorem resize_loses_screen : ¬ Kept (glyphTermScrollBack (termCall tiny (.feed [97, 10, 98, 10, 99])) 1) 4 2
      (termCall (glyphTermScrollBack (termCall tiny (.feed [97, 10, 98, 10, 99])) 1)
        (.resize (small 4) (small 2) (small 8) (small 16) (small 16) true)) := by
  intro h
  exact absurd (h.live 1 2 (by unfold Shared; decide)) (by decide)

end Lorica.Proof.Glyph

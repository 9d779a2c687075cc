import Mathlib

/-!
# Rows of a ring

An array of `n` rows of `w` cells in which line `l` of a page has the row `l % n`. Such an array
holds `n` lines in sequence (`Holds`); it can be written (`Holds.set`), and the row of
its first line is taken for the line after its last one (`Holds.advance`).
-/

namespace Lorica.Ring

variable {α : Type} {n w b l k c d : Int} {cell : Int → α} {page : Int → Int → α}

/-- The index of a cell, by line and column. -/
def index (n w l c : Int) : Int := l % n * w + c

/-- The array has the lines of the page from `b` on. -/
def Holds (n w : Int) (cell : Int → α) (b : Int) (page : Int → Int → α) : Prop :=
  ∀ l, b ≤ l → l < b + n → ∀ c, 0 ≤ c → c < w → cell (index n w l c) = page l c

/-- Lines that are less than `n` apart have rows of their own. -/
theorem line_inj (hl : b ≤ l) (hl' : l < b + n) (hk : b ≤ k) (hk' : k < b + n) (h : l % n = k % n) : l = k := by
  have hdvd : n ∣ l - k := Int.dvd_of_emod_eq_zero (Int.emod_eq_emod_iff_emod_sub_eq_zero.mp h)
  have hzero := Int.eq_zero_of_abs_lt_dvd hdvd (abs_lt.mpr ⟨by omega, by omega⟩)
  omega

/-- Cells of such lines have indices of their own. -/
theorem index_inj (hl : b ≤ l) (hl' : l < b + n) (hk : b ≤ k) (hk' : k < b + n) (hc : 0 ≤ c)
    (hc' : c < w) (hd : 0 ≤ d) (hd' : d < w) (h : index n w l c = index n w k d) : l = k ∧ c = d := by
  unfold index at h
  have hrow (r x : Int) (hx : 0 ≤ x) (hx' : x < w) : (r * w + x) / w = r := by
    rw [Int.add_comm, Int.add_mul_ediv_right _ _ (by omega), Int.ediv_eq_zero_of_lt hx hx', zero_add]
  have hrows : l % n = k % n := by
    rw [← hrow (l % n) c hc hc', h, hrow _ _ hd hd']
  rw [hrows] at h
  exact ⟨line_inj hl hl' hk hk' hrows, by omega⟩

/-- A cell of a line is in the array. -/
theorem index_bounds (hsize : 0 < n) (hc : 0 ≤ c) (hc' : c < w) : 0 ≤ index n w l c ∧ index n w l c < n * w := by
  have hlow := Int.emod_nonneg l hsize.ne'
  have hhigh := Int.emod_lt_of_pos l hsize
  unfold index
  constructor
  · have := Int.mul_nonneg hlow (by omega : 0 ≤ w)
    omega
  · have hrow : (l % n + 1) * w ≤ n * w := Int.mul_le_mul_of_nonneg_right (by omega) (by omega)
    rw [Int.add_mul] at hrow
    omega

theorem Holds.set (h : Holds n w cell b page) (hl : b ≤ l) (hl' : l < b + n) (hc : 0 ≤ c) (hc' : c < w) (a : α) :
    Holds n w (fun k => if k = index n w l c then a else cell k) b
      fun m d => if m = l ∧ d = c then a else page m d := by
  intro m hm hm' d hd hd'
  dsimp only
  by_cases heq : m = l ∧ d = c
  · rw [if_pos heq, heq.1, heq.2, if_pos rfl]
  · rw [if_neg heq, if_neg fun hi => heq (index_inj hm hm' hl hl' hd hd' hc hc' hi)]
    exact h m hm hm' d hd hd'

/-- The row of the first line becomes that of a line that is the same in all columns. -/
theorem Holds.advance (h : Holds n w cell b page) {a : α} (hlast : ∀ c, 0 ≤ c → c < w → page (b + n) c = a) :
    Holds n w (fun k => if index n w (b + n) 0 ≤ k ∧ k < index n w (b + n) 0 + w
      then a else cell k) (b + 1) page := by
  intro m hm hm' d hd hd'
  have hfirst (x : Int) : index n w (b + n) x = index n w (b + n) 0 + x := by
    rw [index, index, Int.add_zero]
  dsimp only
  by_cases heq : m = b + n
  · subst heq
    rw [hfirst d, if_pos ⟨by omega, by omega⟩, hlast d hd hd']
  · rw [if_neg]
    · exact h m (by omega) (by omega) d hd hd'
    · rintro ⟨hge, hlt⟩
      refine heq (index_inj (b := b + 1) hm hm' (by omega) (by omega) hd hd'
        (d := index n w m d - index n w (b + n) 0) (by omega) (by omega) ?_).1
      rw [hfirst]
      omega

end Lorica.Ring

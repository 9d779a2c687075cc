import Lorica.Framework.Decimal
import Lorica.Impl.Herald.Repo

/-!
# herald: the order of versions

A version is cut at its periods, and each part stands for a number (`number`), parts behind its
end for 0 (`component`). `herald_version_gt` walks through two versions in step: `ver_component`
gives these numbers (`verComponent_eq`), so it computes the lexicographic order of the sequences
(`heraldVersionGt_iff`) and is a strict weak order (`version_order`).
-/

namespace Lorica.Proof.Herald

open Lorica.Impl.Herald List

/-! ## Components -/

/-- The decimal number that the digits of a part spell, or the largest `unsigned long long`. -/
def number (part : Bytes) : Nat := min (2 ^ 64 - 1) (digitsValue (part.filter isDigit))

/-- The number between two periods, 0 behind the end. -/
def component (s : Bytes) (i : Nat) : Nat := number ((s.splitOn period).getD i [])

/-- Staying at the largest number is the same in every step as at the end. -/
theorem verNumber_min (w : Nat) (bs : Bytes) : verNumber (min ullongMax w) bs =
    min (2 ^ 64 - 1) ((bs.filter isDigit).foldl (fun v b => 10 * v + (b.toNat - 48)) w) := by
  induction bs generalizing w with
  | nil => rfl
  | cons b bs ih =>
    rw [verNumber]
    split
    · rename_i hb
      have hd := isDigit_iff.1 hb
      have hstep : (if (ullongMax - (b.toNat - 48)) / 10 < min ullongMax w then ullongMax
          else min ullongMax w * 10 + (b.toNat - 48)) = min ullongMax (10 * w + (b.toNat - 48)) := by
        unfold ullongMax
        split <;> omega
      dsimp only
      rw [hstep, ih, filter_cons_of_pos hb, foldl_cons]
    · rename_i hb
      rw [ih, filter_cons_of_neg hb]

/-- `ver_component` gives the number of the text up to the first period. -/
theorem verComponent_eq (s : Bytes) : (verComponent s).1 = number (s.takeWhile (· ≠ period)) :=
  verNumber_min 0 _

/-- What follows the first component and its period. -/
def afterComponent (s : Bytes) : Bytes := (verComponent s).2.drop 1

theorem length_afterComponent_le (s : Bytes) : (afterComponent s).length ≤ s.length - 1 := by
  have hle : (s.dropWhile (· ≠ period)).length ≤ s.length := (dropWhile_suffix _).length_le
  show ((s.dropWhile (· ≠ period)).drop 1).length ≤ s.length - 1
  rw [length_drop]
  omega

/-- A version begins with a part, and either this is all or a period and the other parts follow. -/
theorem splitOn_period (s : Bytes) : s.splitOn period = [s.takeWhile (· ≠ period)] ∧ afterComponent s = [] ∨
    s.splitOn period = s.takeWhile (· ≠ period) :: (afterComponent s).splitOn period := by
  have happ := takeWhile_append_dropWhile (p := (· ≠ period)) (l := s)
  have hpart : ∀ c ∈ s.takeWhile (· ≠ period), (c == period) = false := fun c hc =>
    beq_eq_false_iff_ne.mpr (by simpa using mem_takeWhile_imp hc)
  cases hrest : s.dropWhile (· ≠ period) with
  | nil =>
    rw [hrest, append_nil] at happ
    refine .inl ⟨?_, by rw [afterComponent, verComponent, hrest]; rfl⟩
    conv_lhs => rw [← happ]
    exact splitOnP_eq_singleton hpart
  | cons c t =>
    have hc : c = period := by
      have hhead := head?_dropWhile_not (· ≠ period) s
      rw [hrest] at hhead
      simpa using hhead
    have hafter : afterComponent s = t := by rw [afterComponent, verComponent, hrest]; rfl
    rw [hrest, hc] at happ
    right
    conv_lhs => rw [← happ]
    rw [splitOn, splitOnP_append_cons (p := (· == period)) _ _ (beq_self_eq_true period),
      splitOnP_eq_singleton hpart, hafter]
    rfl

theorem component_nil (i : Nat) : component [] i = 0 := by
  cases i <;> rfl

theorem component_zero (s : Bytes) : component s 0 = (verComponent s).1 := by
  rw [component, verComponent_eq]
  rcases splitOn_period s with ⟨h, -⟩ | h <;> rw [h] <;> rfl

theorem component_succ (s : Bytes) (i : Nat) : component s (i + 1) = component (afterComponent s) i := by
  rcases splitOn_period s with ⟨h, hnil⟩ | h
  · rw [hnil, component_nil, component, h]
    rfl
  · rw [component, h]
    rfl

/-! ## The walk -/

/-- The first place where two sequences differ has the greater number in the first. -/
def LexGt (x y : Nat → Nat) : Prop := ∃ i, (∀ j < i, x j = y j) ∧ y i < x i

theorem lexGt_iff_toLex (x y : Nat → Nat) : LexGt x y ↔ toLex y < toLex x := by
  show _ ↔ ∃ i, (∀ j < i, y j = x j) ∧ y i < x i
  simp only [LexGt, eq_comm]

theorem not_lexGt_self (x : Nat → Nat) : ¬ LexGt x x := by
  rw [lexGt_iff_toLex]
  exact lt_irrefl _

/-- Where the first numbers differ they decide. -/
theorem lexGt_of_ne {x y : Nat → Nat} (h : x 0 ≠ y 0) : LexGt x y ↔ y 0 < x 0 := by
  constructor
  · rintro ⟨i, heq, hlt⟩
    cases i with
    | zero => exact hlt
    | succ i => exact absurd (heq 0 i.succ_pos) h
  · intro hlt
    exact ⟨0, fun j hj => absurd hj (Nat.not_lt_zero j), hlt⟩

/-- Where they are equal the rest decides. -/
theorem lexGt_of_eq {x y : Nat → Nat} (h : x 0 = y 0) : LexGt x y ↔ LexGt (fun i => x (i + 1)) fun i => y (i + 1) := by
  constructor
  · rintro ⟨i, heq, hlt⟩
    cases i with
    | zero => omega
    | succ i => exact ⟨i, fun j hj => heq (j + 1) (by omega), hlt⟩
  · rintro ⟨i, heq, hlt⟩
    refine ⟨i + 1, fun j hj => ?_, hlt⟩
    cases j with
    | zero => exact h
    | succ j => exact heq j (by omega)

theorem versionGt_iff {fuel : Nat} {a b : Bytes} (h : a.length + b.length ≤ fuel) :
    versionGt fuel a b = true ↔ LexGt (component a) (component b) := by
  induction fuel generalizing a b with
  | zero =>
    obtain rfl : a = [] := length_eq_zero_iff.1 (by omega)
    obtain rfl : b = [] := length_eq_zero_iff.1 (by omega)
    simp [versionGt, not_lexGt_self]
  | succ fuel ih =>
    rw [versionGt]
    by_cases hnil : a = [] ∧ b = []
    · obtain ⟨rfl, rfl⟩ := hnil
      simp [not_lexGt_self]
    rw [if_neg hnil, ← component_zero, ← component_zero]
    by_cases hne : component a 0 ≠ component b 0
    · simp only [hne, if_true, ne_eq, not_false_eq_true, decide_eq_true_eq]
      exact (lexGt_of_ne hne).symm
    · have heq := not_not.1 hne
      have hlen : (afterComponent a).length + (afterComponent b).length ≤ fuel := by
        have ha := length_afterComponent_le a
        have hb := length_afterComponent_le b
        omega
      rw [if_neg hne, lexGt_of_eq heq]
      simp only [component_succ]
      exact ih hlen

theorem heraldVersionGt_iff (a b : Bytes) :
    heraldVersionGt a b = true ↔ LexGt (component a) (component b) := versionGt_iff le_rfl

/-- Neither version is greater. -/
def Incomparable (a b : Bytes) : Prop := ¬ heraldVersionGt a b = true ∧ ¬ heraldVersionGt b a = true

theorem incomparable_iff (a b : Bytes) : Incomparable a b ↔ toLex (component a) = toLex (component b) := by
  rw [Incomparable, heraldVersionGt_iff, heraldVersionGt_iff, lexGt_iff_toLex, lexGt_iff_toLex]
  constructor
  · rintro ⟨hab, hba⟩
    exact le_antisymm (not_lt.1 hab) (not_lt.1 hba)
  · intro h
    exact ⟨h.not_gt, h.not_lt⟩

/-- `herald_version_gt` is the lexicographic order of the numbers, zeros behind the end, and a
strict weak order. -/
theorem version_order : (∀ a b, heraldVersionGt a b = true ↔
      ∃ i, (∀ j < i, component a j = component b j) ∧ component b i < component a i) ∧
    (∀ a, ¬ heraldVersionGt a a = true) ∧ (∀ a b, heraldVersionGt a b = true → ¬ heraldVersionGt b a = true) ∧
    (∀ a b c, heraldVersionGt a b = true → heraldVersionGt b c = true → heraldVersionGt a c = true) ∧
    ∀ a b c, Incomparable a b → Incomparable b c → Incomparable a c := by
  have hgt (a b : Bytes) : heraldVersionGt a b = true ↔ toLex (component b) < toLex (component a) := by
    rw [heraldVersionGt_iff, lexGt_iff_toLex]
  refine ⟨heraldVersionGt_iff, fun a => ?_, fun a b => ?_, fun a b c => ?_, fun a b c => ?_⟩
  · rw [hgt]
    exact lt_irrefl _
  · rw [hgt, hgt]
    exact lt_asymm
  · rw [hgt, hgt, hgt]
    exact fun hab hbc => hbc.trans hab
  · rw [incomparable_iff, incomparable_iff, incomparable_iff]
    exact Eq.trans

end Lorica.Proof.Herald

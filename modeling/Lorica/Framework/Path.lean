import Mathlib

/-!
# Byte strings and path names

C strings are lists of bytes without the terminating zero. A path of the file
system is the list of its components; `resolve` is the kernel's reading of a
path name (empty and `.` components dropped, `..` one level up), and `absStr`
the name a program builds for a path, which `resolve_absStr` reads back.
-/

namespace Lorica

open List

abbrev Bytes := List UInt8

/-- The bytes of a string literal. -/
def ascii (s : String) : Bytes := s.toUTF8.data.toList

/-- The byte `/`. -/
def slash : UInt8 := 47

/-- The name of a directory entry. -/
abbrev Name := Bytes

/-- A path from the root, by components. -/
abbrev Path := List Name

def dot : Name := [46]

def dotdot : Name := [46, 46]

/-- A name that a directory entry can have. -/
structure ValidName (n : Name) : Prop where
  ne_nil : n ≠ []
  no_slash : slash ∉ n
  no_nul : 0 ∉ n
  ne_dot : n ≠ dot
  ne_dotdot : n ≠ dotdot

instance (n : Name) : Decidable (ValidName n) :=
  decidable_of_iff (n ≠ [] ∧ slash ∉ n ∧ 0 ∉ n ∧ n ≠ dot ∧ n ≠ dotdot)
    ⟨fun ⟨h₁, h₂, h₃, h₄, h₅⟩ => ⟨h₁, h₂, h₃, h₄, h₅⟩, fun ⟨h₁, h₂, h₃, h₄, h₅⟩ => ⟨h₁, h₂, h₃, h₄, h₅⟩⟩

/-- A path whose components are all names of entries. -/
def ValidPath (p : Path) : Prop := ∀ n ∈ p, ValidName n

instance (p : Path) : Decidable (ValidPath p) := inferInstanceAs (Decidable (∀ n ∈ p, _))

theorem ValidPath.nil : ValidPath [] := forall_mem_nil _

variable {p q : Path}

theorem ValidPath.append (hp : ValidPath p) (hq : ValidPath q) : ValidPath (p ++ q) :=
  fun n hn => (mem_append.mp hn).elim (hp n) (hq n)

theorem ValidPath.left (h : ValidPath (p ++ q)) : ValidPath p :=
  fun n hn => h n (mem_append_left _ hn)

theorem ValidPath.right (h : ValidPath (p ++ q)) : ValidPath q :=
  fun n hn => h n (mem_append_right _ hn)

/-! ## Ancestors -/

/-- The proper prefixes of a path, the root first. -/
def ancestors : Path → List Path
  | [] => []
  | n :: p => [] :: (ancestors p).map (n :: ·)

theorem mem_ancestors : q ∈ ancestors p ↔ q <+: p ∧ q ≠ p := by
  induction p generalizing q with
  | nil => simp only [ancestors, not_mem_nil, prefix_nil, false_iff, not_and, not_not, imp_self]
  | cons n p ih =>
    cases q with
    | nil => simp [ancestors]
    | cons m q => simp [ancestors, ih]; grind

theorem ancestors_concat (p : Path) (n : Name) : ancestors (p ++ [n]) = ancestors p ++ [p] := by
  induction p with
  | nil => rfl
  | cons m p ih => simp [ancestors, ih]

theorem mem_ancestors_concat {n : Name} : q ∈ ancestors (p ++ [n]) ↔ q <+: p := by
  rw [ancestors_concat, mem_append, mem_singleton, mem_ancestors]
  constructor
  · rintro (h | rfl)
    · exact h.1
    · exact prefix_refl _
  · intro h
    by_cases e : q = p
    · exact .inr e
    · exact .inl ⟨h, e⟩

theorem mem_ancestors_trans {r : Path} (h : p ∈ ancestors q) (h' : q ∈ ancestors r) : p ∈ ancestors r := by
  rw [mem_ancestors] at *
  refine ⟨h.1.trans h'.1, ?_⟩
  rintro rfl
  exact h.2 (List.IsPrefix.eq_of_length_le h.1 h'.1.length_le)

/-- Ancestors are listed from the root down. -/
theorem ancestors_pairwise (p : Path) : (ancestors p).Pairwise fun a b => a.length < b.length := by
  induction p with
  | nil => exact .nil
  | cons n p ih =>
    refine pairwise_cons.mpr ⟨?_, ?_⟩
    · intro a ha
      obtain ⟨a, _, rfl⟩ := mem_map.mp ha
      simp
    · rw [pairwise_map]
      exact ih.imp fun h => by simpa using h

theorem not_mem_ancestors_self (p : Path) : p ∉ ancestors p := fun h => (mem_ancestors.mp h).2 rfl

theorem ancestors_append_left (hq : q ≠ []) : p ∈ ancestors (p ++ q) :=
  mem_ancestors.mpr ⟨prefix_append _ _, by simpa using hq⟩

/-! ## Path names -/

/-- What a path name names: a path, and whether it can only name a directory
(`a/`, `a/.`). -/
structure Loc where
  path : Path
  isDir : Bool
deriving DecidableEq

/-- One component of a path name, from the directory `p`. -/
def follow (p : Path) (c : Name) : Path :=
  if c = [] ∨ c = dot then p else if c = dotdot then p.dropLast else p ++ [c]

/-- The kernel's reading of an absolute path name. -/
def resolve (path : Bytes) : Loc where
  path := (path.splitOn slash).foldl follow []
  isDir := (path.splitOn slash).getLast?.any fun c => c = [] ∨ c = dot

/-- The spelling of a path relative to the root. -/
def str (p : Path) : Bytes := [slash].intercalate p

/-- The absolute spelling of a path. -/
def absStr (p : Path) : Bytes := slash :: str p

theorem follow_valid {c : Name} (h : ValidName c) : follow p c = p ++ [c] := by
  simp [follow, h.ne_nil, h.ne_dot, h.ne_dotdot]

theorem foldl_follow_valid (h : ValidPath q) : q.foldl follow p = p ++ q := by
  induction q generalizing p with
  | nil => simp
  | cons c q ih =>
    rw [foldl_cons, follow_valid (h c mem_cons_self),
      ih fun n hn => h n (mem_cons_of_mem _ hn), append_assoc, singleton_append]

theorem splitOn_str (h : ValidPath p) (hp : p ≠ []) : (str p).splitOn slash = p :=
  splitOn_intercalate _ (fun n hn => (h n hn).no_slash) hp

theorem splitOn_absStr (h : ValidPath p) (hp : p ≠ []) : (absStr p).splitOn slash = [] :: p := by
  rw [absStr, ← nil_append (slash :: str p), splitOn_append_cons_self, splitOn_str h hp]
  simp

/-- The name a program builds for a path names that path. -/
theorem resolve_absStr (h : ValidPath p) (hp : p ≠ []) : resolve (absStr p) = ⟨p, false⟩ := by
  obtain ⟨q, n, rfl⟩ := eq_nil_or_concat' p |>.resolve_left hp
  have hn : ValidName n := h n (by simp)
  simp only [resolve, splitOn_absStr h hp, foldl_cons, follow, true_or, ite_true,
    foldl_follow_valid h, Loc.mk.injEq]
  rw [← cons_append, getLast?_concat]
  simp [hn.ne_nil, hn.ne_dot]

/-- A name with a slash at its end names the same path, if it is a directory. -/
theorem resolve_absStr_slash (h : ValidPath p) (hp : p ≠ []) : resolve (absStr p ++ [slash]) = ⟨p, true⟩ := by
  have hsplit : (absStr p ++ [slash]).splitOn slash = ([] :: p) ++ [[]] := by
    rw [splitOn_append_cons_self, splitOn_absStr h hp, splitOn_nil]
  simp only [resolve, hsplit, foldl_append, foldl_cons, foldl_nil, follow, true_or, ite_true,
    foldl_follow_valid h, Loc.mk.injEq, getLast?_concat]
  simp

/-- The parts of a split string have no separator, and are made of its bytes. -/
theorem mem_splitOn {a : UInt8} {xs c : Bytes} (hc : c ∈ xs.splitOn a) : a ∉ c ∧ ∀ b ∈ c, b ∈ xs := by
  induction xs generalizing c with
  | nil =>
    rw [splitOn_nil, mem_singleton] at hc
    subst hc
    exact ⟨not_mem_nil, forall_mem_nil _⟩
  | cons x xs ih =>
    rw [splitOn_cons_eq_if_modifyHead] at hc
    split at hc
    · rcases mem_cons.mp hc with rfl | hc
      · exact ⟨not_mem_nil, forall_mem_nil _⟩
      · exact ⟨(ih hc).1, fun b hb => mem_cons_of_mem _ ((ih hc).2 b hb)⟩
    · rename_i hx
      obtain ⟨y, ys, hys⟩ := exists_cons_of_ne_nil (splitOn_ne_nil a xs)
      rw [hys] at hc
      rcases mem_cons.mp hc with rfl | hc
      · have hy := ih (hys ▸ mem_cons_self)
        refine ⟨fun hm => ?_, fun b hb => ?_⟩
        · rcases mem_cons.mp hm with rfl | hm
          · exact hx (by simp)
          · exact hy.1 hm
        · rcases mem_cons.mp hb with rfl | hb
          · exact mem_cons_self
          · exact mem_cons_of_mem _ (hy.2 b hb)
      · have hy := ih (hys ▸ mem_cons_of_mem _ hc)
        exact ⟨hy.1, fun b hb => mem_cons_of_mem _ (hy.2 b hb)⟩

theorem str_append (hp : p ≠ []) (hq : q ≠ []) : str (p ++ q) = str p ++ slash :: str q := by
  induction p with
  | nil => exact absurd rfl hp
  | cons n p ih =>
    cases p with
    | nil =>
      simp [str, intercalate, intersperse]
    | cons m p =>
      have := ih (by simp)
      simp only [str, intercalate, cons_append, intersperse, flatten_cons] at this ⊢
      rw [this]
      simp

theorem absStr_append (hp : p ≠ []) (hq : q ≠ []) : absStr (p ++ q) = absStr p ++ slash :: str q := by
  rw [absStr, absStr, str_append hp hq, cons_append]

@[simp] theorem str_singleton (n : Name) : str [n] = n := by simp [str]

theorem str_ne_nil (h : ValidPath p) (hp : p ≠ []) : str p ≠ [] := by
  obtain ⟨n, p, rfl⟩ := exists_cons_of_ne_nil hp
  have hn := (h n mem_cons_self).ne_nil
  cases p with
  | nil => simpa using hn
  | cons m p =>
    rw [show n :: m :: p = [n] ++ (m :: p) from rfl, str_append (by simp) (by simp)]
    simp

/-- The spelling of a path does not end in a slash. -/
theorem getLast?_str (h : ValidPath p) (hp : p ≠ []) : (str p).getLast? ≠ some slash := by
  obtain ⟨q, n, rfl⟩ := (eq_nil_or_concat' p).resolve_left hp
  have hn := h n (by simp)
  have hlast : n.getLast? ≠ some slash := fun e => hn.no_slash (mem_of_getLast? e)
  by_cases hq : q = []
  · simpa [hq] using hlast
  · rw [str_append hq (by simp), str_singleton]
    obtain ⟨b, n, rfl⟩ := exists_cons_of_ne_nil hn.ne_nil
    simpa using hlast

theorem length_le_str (h : ValidPath p) : p.length ≤ (str p).length := by
  induction p with
  | nil => exact Nat.zero_le _
  | cons n p ih =>
    have hn := length_pos_of_ne_nil (h n mem_cons_self).ne_nil
    have hp := ih fun m hm => h m (mem_cons_of_mem _ hm)
    by_cases hpe : p = []
    · subst hpe
      rw [str_singleton]
      exact hn
    · rw [show n :: p = [n] ++ p from rfl, str_append (by simp) hpe]
      simp only [length_append, length_cons, length_nil]
      omega

theorem absStr_length_le (h : p <+: q) (hp : p ≠ []) : (absStr p).length ≤ (absStr q).length := by
  obtain ⟨r, rfl⟩ := h
  by_cases hr : r = []
  · simp [hr]
  · rw [absStr_append hp hr]
    simp

theorem str_injective (hp : ValidPath p) (hq : ValidPath q) (h : str p = str q) : p = q := by
  by_cases ep : p = []
  · by_contra e
    exact str_ne_nil hq (fun eq => e (ep.trans eq.symm)) (by rw [← h, ep]; rfl)
  · by_cases eq : q = []
    · exact absurd (by rw [h, eq]; rfl) (str_ne_nil hp ep)
    · rw [← splitOn_str hp ep, h, splitOn_str hq eq]

end Lorica

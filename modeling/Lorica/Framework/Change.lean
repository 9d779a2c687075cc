import Lorica.Framework.FileSys

/-!
# How little a program changes

Relations between the file systems before and after, which compose
(`Pokes.trans`, `Prunes.trans`) and frame out everything else:

* `Makes p`: only missing directories above `p` have been made;
* `Pokes p`: the same, and the file `p` has been created, rewritten or removed;
* `Prunes p`: only `p` and what is below it has been removed;
* `SameBut T`: only the paths in `T` differ.

`Clear s p` says that no file stands above `p`, so that its directories can be
made.
-/

namespace Lorica

open List

/-- No file stands above `p`. -/
def Clear (s : FileSys) (p : Path) : Prop := ∀ q ∈ ancestors p, ∀ b, s.get q ≠ some (.file b)

/-- `s'` is `s` with some of the missing directories above `p` made. -/
def Makes (p : Path) (s s' : FileSys) : Prop :=
  ∀ q, s'.get q = s.get q ∨ q ∈ ancestors p ∧ s.get q = none ∧ s'.get q = some .dir

/-- `s'` is `s` with the file `p` changed, created or removed, and some of the
missing directories above it made. -/
structure Pokes (p : Path) (s s' : FileSys) : Prop where
  other : ∀ q, q ≠ p → s'.get q = s.get q ∨ q ∈ ancestors p ∧ s.get q = none ∧ s'.get q = some .dir
  self : s'.get p = some .dir → s.get p = some .dir

/-- `s'` is `s` with some of what is at or below `p` removed. -/
def Prunes (p : Path) (s s' : FileSys) : Prop := ∀ q, s'.get q = s.get q ∨ p <+: q ∧ s'.get q = none

/-- `s'` is `s` at all paths but those in `T`. -/
def SameBut (T : Path → Prop) (s s' : FileSys) : Prop := ∀ q, ¬ T q → s'.get q = s.get q

section

variable {s s' s'' : FileSys} {p q : Path} {T : Path → Prop}

/-! ## Clear paths -/

theorem Clear.of_get (h : s.get p ≠ none) : Clear s p := fun q hq b hb => by
  obtain ⟨n, hn⟩ := Option.ne_none_iff_exists'.mp h
  rw [FileSys.get_ancestor hn hq] at hb
  cases hb

/-- A path that `lstat` does not find is clear: a file above it would be another
error. -/
theorem Clear.of_enoent {d : Bool} (h : s.stat ⟨p, d⟩ = .error .ENOENT) : Clear s p := by
  intro q hq b hb
  unfold FileSys.stat at h
  cases hbl : s.blocked p with
  | none => rw [FileSys.blocked_eq_none.mp hbl q hq] at hb; cases hb
  | some e =>
    -- the first ancestor that is no directory is `q` itself
    simp only [hbl] at h
    obtain ⟨l1, r, l2, hl, hr, hd⟩ := findSome?_eq_some_iff.mp hbl
    have hrn : s.get r = none := by
      split at hr <;> simp_all
    have hra : r ∈ ancestors p := hl ▸ by simp
    rcases prefix_or_prefix_of_prefix (mem_ancestors.mp hq).1 (mem_ancestors.mp hra).1 with hqr | hrq
    · by_cases e : q = r
      · subst e; rw [hrn] at hb; cases hb
      · -- `q` comes before `r` in the list of ancestors
        have hmem : q ∈ l1 := by
          have hqm := hl ▸ hq
          rcases mem_append.mp hqm with hm | hm
          · exact hm
          rcases mem_cons.mp hm with rfl | hm
          · exact absurd rfl e
          · have hsorted := ancestors_pairwise p
            rw [hl, pairwise_append] at hsorted
            have := (pairwise_cons.mp hsorted.2.1).1 q hm
            have := hqr.length_le
            omega
        have := hd q hmem
        rw [hb] at this; cases this
    · by_cases e : r = q
      · subst e; rw [hrn] at hb; cases hb
      · rw [FileSys.get_ancestor hb (mem_ancestors.mpr ⟨hrq, e⟩)] at hrn
        cases hrn

theorem Clear.of_prefix (h : Clear s p) (hq : q <+: p) : Clear s q := fun r hr =>
  h r (by
    by_cases e : q = p
    · exact e ▸ hr
    · exact mem_ancestors_trans hr (mem_ancestors.mpr ⟨hq, e⟩))

/-! ## Makes -/

theorem Makes.refl (p : Path) (s : FileSys) : Makes p s s := fun _ => .inl rfl

section

variable (h : Makes p s s')

include h

theorem Makes.trans (h' : Makes p s' s'') : Makes p s s'' := fun q => by
  rcases h q with e | ⟨ha, hn, hd⟩ <;> rcases h' q with e' | ⟨ha', hn', hd'⟩
  · exact .inl (e'.trans e)
  · exact .inr ⟨ha', e ▸ hn', hd'⟩
  · exact .inr ⟨ha, hn, e'.trans hd⟩
  · rw [hd] at hn'; cases hn'

theorem Makes.pokes : Pokes p s s' where
  other q _ := h q
  self hd := by
    rcases h p with e | ⟨ha, -⟩
    · exact e ▸ hd
    · exact absurd ha (not_mem_ancestors_self p)

theorem Makes.get_self : s'.get p = s.get p :=
  (h p).resolve_right fun h => not_mem_ancestors_self p h.1

theorem Makes.clear (hc : Clear s q) : Clear s' q := fun r hr b hb => by
  rcases h r with e | ⟨-, -, hd⟩
  · exact hc r hr b (e ▸ hb)
  · rw [hd] at hb; cases hb

/-- Where the directories are there already, nothing is made. -/
theorem Makes.get_eq (hd : ∀ q ∈ ancestors p, s.get q = some .dir) (q : Path) :
    s'.get q = s.get q :=
  (h q).resolve_right fun ⟨ha, hn, _⟩ => by rw [hd q ha] at hn; cases hn

end

/-! ## Pokes -/

theorem Pokes.refl (p : Path) (s : FileSys) : Pokes p s s := ⟨fun _ _ => .inl rfl, id⟩

theorem Pokes.trans (h : Pokes p s s') (h' : Pokes p s' s'') : Pokes p s s'' where
  other q hq := by
    rcases h.other q hq with e | ⟨ha, hn, hd⟩ <;> rcases h'.other q hq with e' | ⟨ha', hn', hd'⟩
    · exact .inl (e'.trans e)
    · exact .inr ⟨ha', e ▸ hn', hd'⟩
    · exact .inr ⟨ha, hn, e'.trans hd⟩
    · rw [hd] at hn'; cases hn'
  self hd := h.self (h'.self hd)

/-- A change of the one file `p`. -/
theorem Pokes.of_get (h : ∀ q, q ≠ p → s'.get q = s.get q) (hp : s'.get p ≠ some .dir) : Pokes p s s' :=
  ⟨fun q hq => .inl (h q hq), fun hd => absurd hd hp⟩

theorem Pokes.get_eq (h : Pokes p s s') (hq : q ≠ p) (ha : q ∉ ancestors p) : s'.get q = s.get q :=
  (h.other q hq).resolve_right fun h => ha h.1

theorem Pokes.data_eq (h : Pokes p s s') (hq : q ≠ p) : s'.data q = s.data q := by
  rcases h.other q hq with e | ⟨-, hn, hd⟩
  · exact FileSys.data_congr e
  · simp only [FileSys.data, hn, hd]

theorem Pokes.get_dir (h : Pokes p s s') (hq : q ≠ p) (hd : s.get q = some .dir) : s'.get q = some .dir := by
  rcases h.other q hq with e | ⟨-, -, hd'⟩
  · rw [e, hd]
  · exact hd'

theorem Pokes.get_file {b : Bytes} (h : Pokes p s s') (hq : q ≠ p) (hd : s.get q = some (.file b)) :
    s'.get q = some (.file b) := by
  rcases h.other q hq with e | ⟨-, hn, -⟩
  · rw [e, hd]
  · rw [hd] at hn; cases hn

/-- A file that is there now, elsewhere than at `p`, was there before. -/
theorem Pokes.file_before {b : Bytes} (h : Pokes p s s') (hq : q ≠ p) (hd : s'.get q = some (.file b)) :
    s.get q = some (.file b) := by
  rcases h.other q hq with e | ⟨-, -, hd'⟩
  · rw [← e, hd]
  · rw [hd] at hd'; cases hd'

/-! ## Prunes -/

theorem Prunes.refl (p : Path) (s : FileSys) : Prunes p s s := fun _ => .inl rfl

theorem Prunes.trans (h : Prunes p s s') (h' : Prunes p s' s'') : Prunes p s s'' := fun q => by
  rcases h' q with e' | ⟨hp, hn⟩
  · rcases h q with e | ⟨hp, hn⟩
    · exact .inl (e'.trans e)
    · exact .inr ⟨hp, e'.trans hn⟩
  · exact .inr ⟨hp, hn⟩

theorem Prunes.mono (h : Prunes p s s') (hq : q <+: p) : Prunes q s s' := fun r =>
  (h r).imp_right fun ⟨hp, hn⟩ => ⟨hq.trans hp, hn⟩

theorem Prunes.get_eq (h : Prunes p s s') (hq : ¬ p <+: q) : s'.get q = s.get q :=
  (h q).resolve_right fun h => hq h.1

/-- What is gone stays gone. -/
theorem Prunes.get_none (h : Prunes p s s') (hq : s.get q = none) : s'.get q = none := by
  rcases h q with e | ⟨-, hn⟩
  · rw [e, hq]
  · exact hn

/-- What is still there is what was there. -/
theorem Prunes.get_some {n : Node} (h : Prunes p s s') (hq : s'.get q = some n) : s.get q = some n := by
  rcases h q with e | ⟨-, hn⟩
  · rw [← e, hq]
  · rw [hq] at hn; cases hn

/-! ## SameBut -/

theorem SameBut.refl (T : Path → Prop) (s : FileSys) : SameBut T s s := fun _ _ => rfl

theorem SameBut.trans (h : SameBut T s s') (h' : SameBut T s' s'') : SameBut T s s'' :=
  fun q hq => (h' q hq).trans (h q hq)

theorem SameBut.mono {T' : Path → Prop} (h : SameBut T s s') (hT : ∀ q, T q → T' q) : SameBut T' s s' :=
  fun q hq => h q fun hm => hq (hT q hm)

theorem SameBut.data_eq (h : SameBut T s s') (hq : ¬ T q) : s'.data q = s.data q :=
  FileSys.data_congr (h q hq)

theorem SameBut.pokes (h : SameBut (· = p) s s') (hp : s'.get p ≠ some .dir) : Pokes p s s' := .of_get h hp

theorem Prunes.sameBut (h : Prunes p s s') : SameBut (p <+: ·) s s' := fun _ hq => h.get_eq hq

/-- Below a directory that is there, a poke changes nothing elsewhere. -/
theorem Pokes.sameBut (h : Pokes (p ++ q) s s') (hp : s.get p = some .dir) : SameBut (p <+: ·) s s' := by
  intro r hr
  refine (h.other r fun e => hr (e ▸ prefix_append _ _)).resolve_right fun ⟨ha, hn, _⟩ => ?_
  -- an ancestor of `p ++ q` that is not below `p` is above it, and is there already
  rcases prefix_or_prefix_of_prefix (mem_ancestors.mp ha).1 (prefix_append p q) with hrp | hpr
  · have hrp : r ∈ ancestors p := mem_ancestors.mpr ⟨hrp, fun e => hr (e ▸ prefix_refl _)⟩
    rw [FileSys.get_ancestor hp hrp] at hn
    cases hn
  · exact hr hpr

end

end Lorica

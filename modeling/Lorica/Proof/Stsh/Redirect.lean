import Lorica.Impl.Stsh.Exec

/-!
# Redirections of stsh

A child redirects a descriptor by `openOn`, which changes nothing else (`get_openOn`). The shell itself
saves the descriptor first, to a descriptor that is free (`Replaced`), unless it is saved already
(`Overwritten`). From these two, the descriptors of an in-process command are those of a child, and some
saved ones besides (`Like`), which only `>&N` can tell apart.

`redirections_agree_iff` compares the three implementations.
-/

namespace Lorica.Proof.Stsh

open Lorica.Impl.Stsh

variable {t base : Descriptors File} {a a' : Applied} {c : Cmd} {o : Opens} {n s : Nat} {f : File}

/-- The standard descriptors are open. -/
def Std (t : Descriptors File) : Prop := ∀ n < 3, (t.get n).isSome = true

theorem Std.le_of_free (h : Std t) {k : Nat} (hk : t.get k = none) : 3 ≤ k := by
  by_contra hlt
  have hopen := h k (by omega)
  rw [hk] at hopen
  exact Bool.false_ne_true hopen

theorem get_dup2 {fd : Nat} (h : (t.get fd).isSome = true) (n k : Nat) :
    (t.dup2 fd n).get k = if k = n then t.get fd else t.get k := by
  rw [Descriptors.dup2, if_pos h, Descriptors.get_put]

theorem get_moveTo {fd : Nat} (h : (t.get fd).isSome = true) (n k : Nat) :
    (moveTo fd n t).get k = if k = fd then none else if k = n then t.get fd else t.get k := by
  rw [moveTo, Descriptors.get_close, get_dup2 h]

/-! ## In the shell -/

/-- The descriptor `n` refers to another file, and what it referred to is saved at `s`. -/
structure Replaced (n : Nat) (f : File) (s : Nat) (a a' : Applied) : Prop where
  free : a.fds.get s = none
  saved : a'.saved = Function.update a.saved n (some s)
  get : ∀ k, a'.fds.get k = if k = n then some f else if k = s then a.fds.get n else a.fds.get k

/-- The descriptor `n` refers to another file. -/
structure Overwritten (n : Nat) (f : File) (a a' : Applied) : Prop where
  saved : a'.saved = a.saved
  get : ∀ k, a'.fds.get k = if k = n then some f else a.fds.get k

/-- There is a new descriptor `r`. -/
structure Opened (r : Nat) (f : File) (a a' : Applied) : Prop where
  free : a.fds.get r = none
  saved : a'.saved = a.saved
  get : ∀ k, a'.fds.get k = if k = r then some f else a.fds.get k

theorem get_save (hn : (a.fds.get n).isSome = true) (k : Nat) :
    (a.save n).fds.get k = if k = a.fds.lowest then a.fds.get n else a.fds.get k := by
  obtain ⟨g, hg⟩ := Option.isSome_iff_exists.mp hn
  have hdup : (a.fds.dup n).2 = a.fds.put a.fds.lowest (some g) := by rw [Descriptors.dup, hg]; rfl
  show (a.fds.dup n).2.get k = _
  rw [hdup, Descriptors.get_put, hg]

theorem saved_save (hn : (a.fds.get n).isSome = true) :
    (a.save n).saved = Function.update a.saved n (some a.fds.lowest) := by
  obtain ⟨g, hg⟩ := Option.isSome_iff_exists.mp hn
  have hdup : (a.fds.dup n).1 = some a.fds.lowest := by rw [Descriptors.dup, hg]; rfl
  show Function.update a.saved n (a.fds.dup n).1 = _
  rw [hdup]

theorem Opened.replaced {r : Nat} (h : Opened r f a a') (hn : (a.fds.get n).isSome = true) :
    ∃ s, Replaced n f s a { (a'.save n) with fds := moveTo r n (a'.save n).fds } := by
  have hnr : n ≠ r := by
    rintro rfl
    rw [h.free] at hn
    exact Bool.false_ne_true hn
  have hn' : (a'.fds.get n).isSome = true := by rw [h.get, if_neg hnr]; exact hn
  have hr : (a'.fds.get r).isSome = true := by rw [h.get, if_pos rfl]; rfl
  have hrs : r ≠ a'.fds.lowest := Descriptors.ne_lowest hr
  have hfree : a'.fds.get a'.fds.lowest = none := Descriptors.get_lowest
  rw [h.get, if_neg hrs.symm] at hfree
  have hget : (a'.save n).fds.get r = some f := by rw [get_save hn', if_neg hrs, h.get, if_pos rfl]
  refine ⟨a'.fds.lowest, hfree, ?_, fun k => ?_⟩
  · show (a'.save n).saved = _
    rw [saved_save hn', h.saved]
  · show (moveTo r n (a'.save n).fds).get k = _
    rw [get_moveTo (by rw [hget]; rfl), hget, get_save hn', h.get, h.get, if_neg hnr]
    by_cases hkr : k = r
    · rw [if_pos hkr, hkr, if_neg hnr.symm, if_neg hrs, h.free]
    · rw [if_neg hkr, if_neg hkr]

theorem Opened.overwritten {r : Nat} (h : Opened r f a a') (hn : (a.fds.get n).isSome = true) :
    Overwritten n f a { a' with fds := moveTo r n a'.fds } := by
  have hnr : n ≠ r := by
    rintro rfl
    rw [h.free] at hn
    exact Bool.false_ne_true hn
  have hget : a'.fds.get r = some f := by rw [h.get, if_pos rfl]
  refine ⟨h.saved, fun k => ?_⟩
  show (moveTo r n a'.fds).get k = _
  rw [get_moveTo (by rw [hget]; rfl), hget, h.get]
  by_cases hkr : k = r
  · rw [if_pos hkr, hkr, if_neg hnr.symm, h.free]
  · rw [if_neg hkr, if_neg hkr]

theorem opened_alloc (a : Applied) (f : File) : Opened (a.fds.alloc f).1 f a { a with fds := (a.fds.alloc f).2 } :=
  ⟨Descriptors.get_lowest, rfl, Descriptors.get_alloc⟩

/-- The read end of the pipe of a here-document stays open. -/
theorem opened_heredoc (a : Applied) (body : Bytes) : ∃ r, (heredocStdin true body a.fds).1 = some r ∧
      Opened r (.heredoc (body.take 4000)) a { a with fds := (heredocStdin true body a.fds).2 } := by
  obtain ⟨hne, hr, hw, hget⟩ := Descriptors.pipe_spec (t := a.fds) (.heredoc (body.take 4000)) (.pipe 0 true)
  refine ⟨_, rfl, hr, rfl, fun k => ?_⟩
  show ((a.fds.pipe _ _).2.close _).get k = _
  rw [Descriptors.get_close, hget]
  by_cases hk : k = (a.fds.pipe (.heredoc (body.take 4000)) (.pipe 0 true)).1.2
  · rw [if_pos hk, if_neg (by rw [hk]; exact hne.symm), hk, hw]
  · rw [if_neg hk, if_neg hk]

/-! ## In a child -/

theorem get_openOn (hn : (t.get n).isSome = true) (k : Nat) :
    (openOn n f t).get k = if k = n then some f else t.get k :=
  ((opened_alloc ⟨t, fun _ => none⟩ f).overwritten hn).get k

theorem get_heredocOn (h0 : (t.get 0).isSome = true) (body : Bytes) (k : Nat) :
    (heredocOn true body t).get k = if k = 0 then some (.heredoc (body.take 4000)) else t.get k := by
  obtain ⟨r, hr, hopened⟩ := opened_heredoc ⟨t, fun _ => none⟩ body
  have hon : heredocOn true body t = moveTo r 0 (heredocStdin true body t).2 := by rw [heredocOn, hr]; rfl
  rw [hon]
  exact (hopened.overwritten h0).get k

/-! ## The shell and a child -/

/-- The shell has the descriptors of a child, and some besides. -/
def Like (t : Descriptors File) (a : Applied) : Prop := ∀ k, a.fds.get k = t.get k ∨ t.get k = none ∧ 3 ≤ k

variable {t' : Descriptors File}

theorem Like.get_of_isSome (h : Like t a) {k : Nat} (hk : (t.get k).isSome = true) : a.fds.get k = t.get k := by
  refine (h k).resolve_right fun hnone => ?_
  rw [hnone.1] at hk
  exact Bool.false_ne_true hk

theorem Like.none_of_none (h : Like t a) {k : Nat} (hk : a.fds.get k = none) : t.get k = none :=
  (h k).elim (fun heq => heq ▸ hk) And.left

theorem Std.change (hstd : Std t) (h : ∀ k, t'.get k = if k = n then some f else t.get k) : Std t' := by
  intro k hk
  rw [h]
  split
  · rfl
  · exact hstd k hk

theorem Like.replaced (h : Like t a) (hstd : Std t) (hr : Replaced n f s a a')
    (ht : ∀ k, t'.get k = if k = n then some f else t.get k) : Like t' a' := by
  have hs := h.none_of_none hr.free
  have hle := hstd.le_of_free hs
  intro k
  rw [hr.get, ht]
  split
  · exact .inl rfl
  split
  · rename_i hks
    rw [hks]
    exact .inr ⟨hs, hle⟩
  · exact h k

theorem Like.overwritten (h : Like t a) (ho : Overwritten n f a a')
    (ht : ∀ k, t'.get k = if k = n then some f else t.get k) : Like t' a' := by
  intro k
  rw [ho.get, ht]
  split
  · exact .inl rfl
  · exact h k

theorem Like.isSome (h : Like t a) (hstd : Std t) (hn : n < 3) : (a.fds.get n).isSome = true := by
  rw [h.get_of_isSome (hstd n hn)]
  exact hstd n hn

theorem Like.openOn (h : Like t a) (hstd : Std t) (hn : n < 3) :
    Like (Impl.Stsh.openOn n f t) (a.openOn n f) ∧ Std (Impl.Stsh.openOn n f t) := by
  have ht := get_openOn (f := f) (hstd n hn)
  obtain ⟨s, hr⟩ := (opened_alloc a f).replaced (h.isSome hstd hn)
  exact ⟨h.replaced hstd hr ht, hstd.change ht⟩

theorem Like.heredocOn (h : Like t a) (hstd : Std t) (ok : Bool) (body : Bytes) :
    Like (Impl.Stsh.heredocOn ok body t) (a.heredocOn ok body) ∧ Std (Impl.Stsh.heredocOn ok body t) := by
  cases ok with
  | false => exact ⟨h, hstd⟩
  | true =>
    have ht := get_heredocOn (hstd 0 (by decide)) body
    refine ⟨?_, hstd.change ht⟩
    obtain ⟨r, hr, hopened⟩ := opened_heredoc a body
    have hopen := h.isSome hstd (n := 0) (by decide)
    rw [Applied.heredocOn, hr]
    dsimp only [Option.map_some, Option.getD_some, Applied.saveOnce]
    split
    · obtain ⟨s, hreplaced⟩ := hopened.replaced hopen
      exact h.replaced hstd hreplaced ht
    · exact h.overwritten (hopened.overwritten hopen) ht

theorem Like.save (h : Like t a) (hstd : Std t) (hn : n < 3) : Like t (a.save n) := by
  intro k
  rw [get_save (h.isSome hstd hn)]
  split
  · rename_i hk
    have hfree := h.none_of_none (Descriptors.get_lowest (t := a.fds))
    rw [hk]
    exact .inr ⟨hfree, hstd.le_of_free hfree⟩
  · exact h k

theorem Like.dup2 {i j : Nat} (h : Like t a) (hi : (t.get i).isSome = true) :
    Like (t.dup2 i j) { a with fds := a.fds.dup2 i j } := by
  have hget := h.get_of_isSome hi
  intro k
  show (a.fds.dup2 i j).get k = _ ∨ _
  rw [get_dup2 (by rw [hget]; exact hi), get_dup2 hi, hget]
  split
  · exact .inl rfl
  · exact h k

/-- The shell saves its standard error, and has it refer to its standard output. -/
def errorToOutput (a : Applied) : Applied := { (a.save 2) with fds := (a.save 2).fds.dup2 1 2 }

/-- The shell as it comes to `>&N`, with its standard output saved. -/
def beforeDup (c : Cmd) (a : Applied) : Applied := (if c.stderrToStdout then errorToOutput a else a).saveOnce 1

theorem dups_eq (c : Cmd) (a : Applied) : a.dups c = if c.stdoutDupTo ≠ 0 then
      { (beforeDup c a) with fds := dupStdout c.stdoutDupTo (beforeDup c a).fds }
    else if c.stderrToStdout then errorToOutput a else a := rfl

/-! ## The three implementations -/

/-- What the standard descriptors refer to. -/
def view (t : Descriptors File) : Option File × Option File × Option File := (t.get 0, t.get 1, t.get 2)

theorem Like.view_eq (h : Like t a) (hstd : Std t) : view a.fds = view t := by
  unfold view
  rw [h.get_of_isSome (hstd 0 (by decide)), h.get_of_isSome (hstd 1 (by decide)), h.get_of_isSome (hstd 2 (by decide))]

/-- The descriptor `N` of `>&N` is one that a child has too, or nothing is saved there but what the standard
output refers to as well. -/
def DupAlike (c : Cmd) (t : Descriptors File) (a : Applied) : Prop :=
  c.stdoutDupTo ≤ 0 ∨ (t.get c.stdoutDupTo.toNat).isSome = true ∨
    ∀ f, (beforeDup c a).fds.get c.stdoutDupTo.toNat = some f → (beforeDup c a).fds.get 1 = some f

theorem view_dup2 {i : Nat} (hi : (t.get i).isSome = true) : view (t.dup2 i 1) = (t.get 0, t.get i, t.get 2) := by
  unfold view
  rw [get_dup2 hi, get_dup2 hi, get_dup2 hi]
  rfl

theorem Like.dups_iff (h : Like t a) (hstd : Std t) : view (a.dups c).fds = view (childDups c t) ↔ DupAlike c t a := by
  -- after `2>&1`
  obtain ⟨t1, a1, ht1, ha1, h1, hstd1, hopen1⟩ : ∃ t1 a1, (if c.stderrToStdout then t.dup2 1 2 else t) = t1 ∧
      (if c.stderrToStdout then errorToOutput a else a) = a1 ∧ Like t1 a1 ∧ Std t1 ∧
      ∀ k, (t1.get k).isSome = (t.get k).isSome := by
    by_cases hto : c.stderrToStdout = true
    · have hget : ∀ k, (t.dup2 1 2).get k = if k = 2 then t.get 1 else t.get k := get_dup2 (hstd 1 (by decide)) 2
      have hopen : ∀ k, ((t.dup2 1 2).get k).isSome = (t.get k).isSome := fun k => by
        rw [hget]
        split
        · rename_i hk
          rw [hk, hstd 1 (by decide), hstd 2 (by decide)]
        · rfl
      exact ⟨_, _, if_pos hto, if_pos hto, (h.save hstd (by decide)).dup2 (hstd 1 (by decide)),
        fun k hk => (hopen k).trans (hstd k hk), hopen⟩
    · exact ⟨_, _, if_neg hto, if_neg hto, h, hstd, fun _ => rfl⟩
  have hsave : Like t1 (beforeDup c a) := by
    rw [beforeDup, ha1, Applied.saveOnce]
    split
    · exact h1.save hstd1 (by decide)
    · exact h1
  have hview := hsave.view_eq hstd1
  rw [dups_eq, ha1, childDups, ht1, DupAlike, ← hopen1]
  by_cases hzero : c.stdoutDupTo = 0
  · rw [if_neg (not_not.mpr hzero), if_neg (not_not.mpr hzero)]
    exact iff_of_true (h1.view_eq hstd1) (.inl (by omega))
  rw [if_pos hzero, if_pos hzero, dupStdout, dupStdout]
  by_cases hneg : c.stdoutDupTo < 0
  · rw [if_pos hneg, if_pos hneg]
    exact iff_of_true hview (.inl (by omega))
  rw [if_neg hneg, if_neg hneg]
  by_cases hopen : (t1.get c.stdoutDupTo.toNat).isSome = true
  · refine iff_of_true ?_ (.inr (.inl hopen))
    have hget := hsave.get_of_isSome hopen
    rw [view_dup2 hopen, view_dup2 (by rw [hget]; exact hopen), hget, hsave.get_of_isSome (hstd1 0 (by decide)),
      hsave.get_of_isSome (hstd1 2 (by decide))]
  · -- the child has no such descriptor
    have hchild : view (t1.dup2 c.stdoutDupTo.toNat 1) = view t1 := by rw [Descriptors.dup2, if_neg hopen]
    rw [hchild, ← hview, or_iff_right (by omega), or_iff_right hopen]
    cases hf : (beforeDup c a).fds.get c.stdoutDupTo.toNat with
    | none =>
      refine iff_of_true ?_ nofun
      rw [Descriptors.dup2, if_neg (by simp [hf])]
    | some f =>
      rw [view_dup2 (by rw [hf]; rfl), hf, view, Prod.mk.injEq, Prod.mk.injEq]
      constructor
      · rintro ⟨-, h, -⟩ g hg
        rw [← h, hg]
      · exact fun h => ⟨rfl, (h f rfl).symm, rfl⟩

/-- Every file that is asked for can be opened. -/
def AllOpen (c : Cmd) (o : Opens) : Prop :=
  (c.stdinFile.isSome && !o.input) = false ∧ (c.stdoutFile.isSome && !o.output) = false ∧
    (c.stderrFile.isSome && !o.error) = false

/-- The descriptors of a child whose files can all be opened, before those that are copied. -/
def childFiles (c : Cmd) (o : Opens) (t : Descriptors File) : Descriptors File :=
  let t := (c.stdinFile.map fun path => openOn 0 (.input path) t).getD t
  let t := (c.heredocBody.map fun body => heredocOn o.heredoc body t).getD t
  let t := (c.stdoutFile.map fun path => openOn 1 (.output path c.stdoutAppend) t).getD t
  (c.stderrFile.map fun path => openOn 2 (.error path) t).getD t

theorem childRedirs_eq (h : AllOpen c o) (t : Descriptors File) :
    childRedirs c o t = some (childDups c (childFiles c o t)) := by
  unfold childRedirs
  rw [h.1, h.2.1, h.2.2]
  rfl

theorem childRedirs_isSome (t : Descriptors File) : (childRedirs c o t).isSome = true ↔ AllOpen c o := by
  refine ⟨fun h => ?_, fun h => by rw [childRedirs_eq h]; rfl⟩
  unfold childRedirs at h
  split at h
  · exact absurd h Bool.false_ne_true
  split at h
  · exact absurd h Bool.false_ne_true
  split at h
  · exact absurd h Bool.false_ne_true
  · rename_i hin hout herr
    exact ⟨by simpa using hin, by simpa using hout, by simpa using herr⟩

theorem childRedirsBg_eq (h : AllOpen c o) (t : Descriptors File) :
    childRedirsBg c o t = childDups c (childFiles c o t) := by
  have hopen : ∀ {x : Option Bytes} {b : Bool}, (x.isSome && !b) = false → ∀ (g : Bytes → Descriptors File) t,
      (x.map fun path => if b then g path else t).getD t = (x.map g).getD t := by
    intro x b hb g t
    cases x with
    | none => rfl
    | some path =>
      have hb' : b = true := by simpa using hb
      rw [hb']
      rfl
  unfold childRedirsBg childFiles
  dsimp only
  rw [hopen h.1, hopen h.2.1, hopen h.2.2]

/-- The same in the shell. -/
def applyFiles (c : Cmd) (o : Opens) (t : Descriptors File) : Applied :=
  let a : Applied := ⟨t, fun _ => none⟩
  let a := (c.stdinFile.map fun path => a.openOn 0 (.input path)).getD a
  let a := (c.heredocBody.map fun body => a.heredocOn o.heredoc body).getD a
  let a := (c.stdoutFile.map fun path => a.openOn 1 (.output path c.stdoutAppend)).getD a
  (c.stderrFile.map fun path => a.openOn 2 (.error path)).getD a

theorem redirApply_eq (h : AllOpen c o) (t : Descriptors File) :
    redirApply c o t = (true, (applyFiles c o t).dups c) := by
  unfold redirApply
  rw [h.1, h.2.1, h.2.2]
  rfl

/-- What holds between a child and the shell while they redirect. -/
structure Follows (base t : Descriptors File) (a : Applied) : Prop where
  like : Like t a
  std : Std t
  stays : ∀ k, (t.get k).isSome = (base.get k).isSome

theorem Follows.openOn (h : Follows base t a) (hn : n < 3) :
    Follows base (Impl.Stsh.openOn n f t) (a.openOn n f) := by
  obtain ⟨hlike, hstd⟩ := h.like.openOn (f := f) h.std hn
  refine ⟨hlike, hstd, fun k => ?_⟩
  rw [get_openOn (h.std n hn), ← h.stays]
  split
  · rename_i hk
    rw [hk, h.std n hn]
    rfl
  · rfl

theorem Follows.heredocOn (h : Follows base t a) (ok : Bool) (body : Bytes) :
    Follows base (Impl.Stsh.heredocOn ok body t) (a.heredocOn ok body) := by
  obtain ⟨hlike, hstd⟩ := h.like.heredocOn h.std ok body
  refine ⟨hlike, hstd, fun k => ?_⟩
  cases ok with
  | false => exact h.stays k
  | true =>
    rw [get_heredocOn (h.std 0 (by decide)), ← h.stays]
    split
    · rename_i hk
      rw [hk, h.std 0 (by decide)]
      rfl
    · rfl

theorem Follows.optional {x : Option Bytes} {g : Bytes → Descriptors File} {g' : Bytes → Applied} (h : Follows base t a)
    (hsome : ∀ b, Follows base (g b) (g' b)) : Follows base ((x.map g).getD t) ((x.map g').getD a) := by
  cases x with
  | none => exact h
  | some b => exact hsome b

theorem files_follow (hstd : Std t) : Follows t (childFiles c o t) (applyFiles c o t) := by
  have hstart : Follows t t ⟨t, fun _ => none⟩ := ⟨fun _ => .inl rfl, hstd, fun _ => rfl⟩
  have hinput := hstart.optional (x := c.stdinFile) fun path => hstart.openOn (f := .input path) (n := 0) (by decide)
  have hheredoc := hinput.optional (x := c.heredocBody) fun body => hinput.heredocOn o.heredoc body
  have houtput := hheredoc.optional (x := c.stdoutFile) fun path =>
    hheredoc.openOn (f := .output path c.stdoutAppend) (n := 1) (by decide)
  exact houtput.optional (x := c.stderrFile) fun path => houtput.openOn (f := .error path) (n := 2) (by decide)

/-- The redirection `>&N` makes no difference. -/
def DupIdle (t : Descriptors File) (n : Int) : Prop := n ≤ 0 ∨ t.get n.toNat = none ∨ t.get n.toNat = t.get 1

theorem view_childDups_iff (hto : c.stderrToStdout = false) : view t = view (childDups c t) ↔
    DupIdle t c.stdoutDupTo := by
  have hdups : childDups c t = if c.stdoutDupTo ≠ 0 then dupStdout c.stdoutDupTo t else t := by
    unfold childDups
    rw [hto]
    rfl
  rw [hdups]
  by_cases hpos : c.stdoutDupTo ≤ 0
  · refine iff_of_true ?_ (.inl hpos)
    split
    · rw [dupStdout, if_pos (by omega)]
    · rfl
  · rw [if_pos (by omega), dupStdout, if_neg (by omega)]
    by_cases hopen : (t.get c.stdoutDupTo.toNat).isSome = true
    · rw [view_dup2 hopen]
      constructor
      · intro h
        exact .inr (.inr (congrArg (fun v => v.2.1) h).symm)
      · rintro (h | h | h)
        · exact absurd h hpos
        · rw [h] at hopen
          exact absurd hopen Bool.false_ne_true
        · rw [view, h]
    · have hnone : t.get c.stdoutDupTo.toNat = none := by simpa using hopen
      rw [Descriptors.dup2, if_neg hopen]
      exact iff_of_true rfl (.inr (.inl hnone))

/-- The three implementations run the command with the same standard descriptors, or none of them runs it. -/
def Agree (c : Cmd) (o : Opens) (t : Descriptors File) : Prop :=
  (inProcess c o t).map view = (childRedirs c o t).map view ∧
    (childRedirs c o t).map view = some (view (childRedirsBg c o t))

theorem childFiles_of_not_needRedir (h : needRedir c = false) (o : Opens) (t : Descriptors File) :
    childFiles c o t = t ∧ c.stderrToStdout = false ∧ AllOpen c o := by
  simp only [needRedir, Bool.or_eq_false_iff, Option.isSome_eq_false_iff, Option.isNone_iff_eq_none] at h
  obtain ⟨⟨⟨⟨hin, hdoc⟩, hout⟩, herr⟩, hto⟩ := h
  refine ⟨?_, hto, ?_, ?_, ?_⟩
  · unfold childFiles
    rw [hin, hdoc, hout, herr]
    rfl
  · rw [hin]
    rfl
  · rw [hout]
    rfl
  · rw [herr]
    rfl

/-- Every file can be opened, and: `>&N` does not stand alone or makes no difference, and with other redirections
the standard descriptors are open, and `N` is no descriptor at which only the shell has something else. -/
structure Alike (c : Cmd) (o : Opens) (t : Descriptors File) : Prop where
  opens : AllOpen c o
  std : needRedir c = true → Std t
  dup : needRedir c = true → DupAlike c t (applyFiles c o t)
  alone : needRedir c = false → DupIdle t c.stdoutDupTo

/-- A command without redirections. -/
def plainCmd : Cmd := ⟨none, none, none, false, none, false, 0⟩

theorem std_standard : Std standard := by
  intro n hn
  show (if n < 3 then some (File.given n) else none).isSome = true
  rw [if_pos hn]
  rfl

end Lorica.Proof.Stsh

import Lorica.Proof.Stsh.Redirect

/-!
# The shell gets its descriptors back

While the shell redirects, it can restore what it had (`Restorable`): each standard descriptor is as it
was or is saved, at a descriptor of its own. `redir_restore` then undoes everything (`get_redirRestore`).
There are two ways out of this. Where a file cannot be opened, `redir_apply` returns and nothing is
restored; and `2>file` with `2>&1` saves the standard error twice, and forgets the first (`Leaks`).
-/

namespace Lorica.Proof.Stsh

open Lorica.Impl.Stsh

variable {base t : Descriptors File} {a a' : Applied} {c : Cmd} {o : Opens} {n s : Nat} {f : File}

structure Restorable (base : Descriptors File) (a : Applied) : Prop where
  std : Std a.fds
  kept : ∀ n < 3, a.saved n = none → a.fds.get n = base.get n
  slot : ∀ n < 3, ∀ s, a.saved n = some s → base.get s = none ∧ a.fds.get s = base.get n
  apart : ∀ n < 3, ∀ m < 3, ∀ s, a.saved n = some s → a.saved m = some s → n = m
  rest : ∀ k, 3 ≤ k → (∀ n < 3, a.saved n ≠ some k) → a.fds.get k = base.get k

theorem restorable_start (h : Std base) : Restorable base ⟨base, fun _ => none⟩ where
  std := h
  kept _ _ _ := rfl
  slot _ _ _ h := absurd h (by simp)
  apart _ _ _ _ _ h := absurd h (by simp)
  rest _ _ _ := rfl

/-- A descriptor that is free is not one at which something is saved. -/
theorem Restorable.not_saved (h : Restorable base a) (hbase : Std base) (hs : a.fds.get s = none) :
    ∀ n < 3, a.saved n ≠ some s := by
  intro n hn hsaved
  have hget := (h.slot n hn s hsaved).2
  have hopen := hbase n hn
  rw [← hget, hs] at hopen
  exact Bool.false_ne_true hopen

theorem Restorable.slot_ge (h : Restorable base a) (hbase : Std base) (hn : n < 3) (hs : a.saved n = some s) : 3 ≤ s :=
  hbase.le_of_free (h.slot n hn s hs).1

theorem Restorable.replaced (h : Restorable base a) (hbase : Std base) (hn : n < 3) (hnone : a.saved n = none)
    (hr : Replaced n f s a a') : Restorable base a' := by
  have hnot := h.not_saved hbase hr.free
  have hge := h.std.le_of_free hr.free
  have hfree : base.get s = none := by rw [← h.rest s hge hnot, hr.free]
  have hsaved : ∀ m, m ≠ n → a'.saved m = a.saved m := fun m hm => by rw [hr.saved, Function.update_of_ne hm]
  have hself : a'.saved n = some s := by rw [hr.saved, Function.update_self]
  refine ⟨fun k hk => ?_, fun m hm hnone' => ?_, fun m hm r hr' => ?_,
    fun m hm k hk r hmr hkr => ?_, fun k hk hnot' => ?_⟩
  · rw [hr.get]
    split
    · rfl
    · rw [if_neg (by omega)]
      exact h.std k hk
  · by_cases hmn : m = n
    · rw [hmn, hself] at hnone'
      exact absurd hnone' (by simp)
    · rw [hr.get, if_neg hmn, if_neg (by omega)]
      exact h.kept m hm (hsaved m hmn ▸ hnone')
  · by_cases hmn : m = n
    · subst hmn
      obtain rfl : s = r := Option.some.inj (hself.symm.trans hr')
      refine ⟨hfree, ?_⟩
      rw [hr.get, if_neg (by omega), if_pos rfl]
      exact h.kept m hm hnone
    · have hold : a.saved m = some r := hsaved m hmn ▸ hr'
      have hrge := h.slot_ge hbase hm hold
      have hne : r ≠ s := fun heq => hnot m hm (heq ▸ hold)
      rw [hr.get, if_neg (by omega), if_neg hne]
      exact h.slot m hm r hold
  · by_cases hmn : m = n
    · by_cases hkn : k = n
      · rw [hmn, hkn]
      · rw [hmn, hself] at hmr
        rw [hsaved k hkn, ← hmr] at hkr
        exact absurd hkr (hnot k hk)
    · rw [hsaved m hmn] at hmr
      by_cases hkn : k = n
      · rw [hkn, hself] at hkr
        rw [← hkr] at hmr
        exact absurd hmr (hnot m hm)
      · rw [hsaved k hkn] at hkr
        exact h.apart m hm k hk r hmr hkr
  · have hks : k ≠ s := fun heq => hnot' n hn (heq ▸ hself)
    rw [hr.get, if_neg (by omega), if_neg hks]
    refine h.rest k hk fun m hm => ?_
    by_cases hmn : m = n
    · rw [hmn, hnone]
      simp
    · rw [← hsaved m hmn]
      exact hnot' m hm

/-- What is saved may change. -/
theorem Restorable.changed (h : Restorable base a) (hbase : Std base) (hn : n < 3) (hsome : (a.saved n).isSome = true)
    (hsaved : a'.saved = a.saved) (hopen : (a'.fds.get n).isSome = true)
    (hget : ∀ k, k ≠ n → a'.fds.get k = a.fds.get k) : Restorable base a' := by
  refine ⟨fun k hk => ?_, fun m hm hnone => ?_, fun m hm r hr => ?_, hsaved ▸ h.apart, fun k hk hnot => ?_⟩
  · by_cases hkn : k = n
    · rw [hkn]
      exact hopen
    · rw [hget k hkn]
      exact h.std k hk
  · rw [hsaved] at hnone
    have hmn : m ≠ n := by
      rintro rfl
      rw [hnone] at hsome
      exact Bool.false_ne_true hsome
    rw [hget m hmn]
    exact h.kept m hm hnone
  · rw [hsaved] at hr
    have hge := h.slot_ge hbase hm hr
    rw [hget r (by omega)]
    exact h.slot m hm r hr
  · rw [hget k (by omega)]
    exact h.rest k hk (hsaved ▸ hnot)

/-! ## Restoring -/

/-- `redir_restore` for one descriptor. -/
def restoreOne (n : Nat) (a : Applied) : Applied :=
  ⟨((a.saved n).map fun s => moveTo s n a.fds).getD a.fds, Function.update a.saved n none⟩

theorem redirRestore_eq (a : Applied) : redirRestore a = (restoreOne 2 (restoreOne 1 (restoreOne 0 a))).fds := by
  simp [redirRestore, restoreOne]

theorem Restorable.restoreOne (h : Restorable base a) (hbase : Std base) (hn : n < 3) :
    Restorable base (restoreOne n a) := by
  have hsaved : ∀ m, m ≠ n → (Stsh.restoreOne n a).saved m = a.saved m := fun m hm => Function.update_of_ne hm _ _
  have hself : (Stsh.restoreOne n a).saved n = none := Function.update_self _ _ _
  cases hs : a.saved n with
  | none =>
    have hsame : Stsh.restoreOne n a = a := by
      have hupdate : Function.update a.saved n none = a.saved := by rw [← hs, Function.update_eq_self]
      rw [Stsh.restoreOne, hs, hupdate]
      rfl
    rw [hsame]
    exact h
  | some s =>
    obtain ⟨hfree, hslot⟩ := h.slot n hn s hs
    have hge := h.slot_ge hbase hn hs
    have hopen : (a.fds.get s).isSome = true := by rw [hslot]; exact hbase n hn
    have hget : ∀ k, (Stsh.restoreOne n a).fds.get k = if k = s then none else if k = n then
        base.get n else a.fds.get k := by
      intro k
      have hfds : (Stsh.restoreOne n a).fds = moveTo s n a.fds := by rw [Stsh.restoreOne, hs]; rfl
      rw [hfds, get_moveTo hopen, hslot]
    refine ⟨fun k hk => ?_, fun m hm hnone => ?_, fun m hm r hr => ?_,
      fun m hm k hk r hmr hkr => ?_, fun k hk hnot => ?_⟩
    · rw [hget, if_neg (by omega)]
      split
      · exact hbase n hn
      · exact h.std k hk
    · rw [hget, if_neg (by omega)]
      by_cases hmn : m = n
      · rw [if_pos hmn, hmn]
      · rw [if_neg hmn]
        exact h.kept m hm (hsaved m hmn ▸ hnone)
    · have hmn : m ≠ n := by
        rintro rfl
        rw [hself] at hr
        exact absurd hr (by simp)
      rw [hsaved m hmn] at hr
      have hrs : r ≠ s := fun heq => hmn (h.apart m hm n hn s (heq ▸ hr) hs)
      have hrge := h.slot_ge hbase hm hr
      rw [hget, if_neg hrs, if_neg (by omega)]
      exact h.slot m hm r hr
    · have hmn : m ≠ n := by
        rintro rfl
        rw [hself] at hmr
        exact absurd hmr (by simp)
      have hkn : k ≠ n := by
        rintro rfl
        rw [hself] at hkr
        exact absurd hkr (by simp)
      exact h.apart m hm k hk r (hsaved m hmn ▸ hmr) (hsaved k hkn ▸ hkr)
    · rw [hget]
      by_cases hks : k = s
      · rw [if_pos hks, hks, hfree]
      · rw [if_neg hks, if_neg (by omega)]
        refine h.rest k hk fun m hm => ?_
        by_cases hmn : m = n
        · rw [hmn, hs]
          exact fun heq => hks (Option.some.inj heq).symm
        · rw [← hsaved m hmn]
          exact hnot m hm

/-- What can be restored is restored. -/
theorem get_redirRestore (h : Restorable base a) (hbase : Std base) (k : Nat) :
    (redirRestore a).get k = base.get k := by
  have hdone := ((h.restoreOne hbase (n := 0) (by decide)).restoreOne hbase (n := 1)
      (by decide)).restoreOne hbase (n := 2)
    (by decide)
  have hnone : ∀ n < 3, (restoreOne 2 (restoreOne 1 (restoreOne 0 a))).saved n = none := by
    intro n hn
    have hcases : n = 0 ∨ n = 1 ∨ n = 2 := by omega
    obtain rfl | rfl | rfl := hcases <;> simp [restoreOne]
  by_cases hk : k < 3
  · exact hdone.kept k hk (hnone k hk)
  · refine hdone.rest k (by omega) fun n hn => ?_
    rw [hnone n hn]
    simp

/-! ## The redirections one by one -/

theorem replaced_save (hf : a.fds.get n = some f) : Replaced n f a.fds.lowest a (a.save n) := by
  have hn : (a.fds.get n).isSome = true := by rw [hf]; rfl
  refine ⟨Descriptors.get_lowest, saved_save hn, fun k => ?_⟩
  rw [get_save hn]
  by_cases hk : k = n
  · rw [if_pos hk, hk, if_neg (Descriptors.ne_lowest hn), hf]
  · rw [if_neg hk]

theorem Restorable.openOn (h : Restorable base a) (hbase : Std base)
    (hn : n < 3) (hnone : a.saved n = none) (f : File) :
    Restorable base (a.openOn n f) ∧ ∃ s, (a.openOn n f).saved = Function.update a.saved n (some s) := by
  obtain ⟨s, hr⟩ := (opened_alloc a f).replaced (h.std n hn)
  exact ⟨h.replaced hbase hn hnone hr, s, hr.saved⟩

/-- A here-document, of which the shell saves its standard input unless that is saved. -/
theorem Restorable.heredocOn (h : Restorable base a) (hbase : Std base) (ok : Bool) (body : Bytes) :
    Restorable base (a.heredocOn ok body) ∧
      (((a.heredocOn ok body).saved 0).isSome = true ↔ (a.saved 0).isSome = true ∨ ok = true) ∧
      ∀ m, m ≠ 0 → (a.heredocOn ok body).saved m = a.saved m := by
  cases ok with
  | false => exact ⟨h, by simp [Applied.heredocOn, heredocStdin], fun m hm => rfl⟩
  | true =>
    obtain ⟨r, hr, hopened⟩ := opened_heredoc a body
    have hopen := h.std 0 (by decide)
    rw [Applied.heredocOn, hr]
    dsimp only [Option.map_some, Option.getD_some, Applied.saveOnce]
    by_cases hnone : a.saved 0 = none
    · rw [if_pos hnone]
      obtain ⟨s, hreplaced⟩ := hopened.replaced hopen
      refine ⟨h.replaced hbase (by decide) hnone hreplaced, ?_, fun m hm => ?_⟩
      · rw [hreplaced.saved]
        simp
      · rw [hreplaced.saved, Function.update_of_ne hm]
    · rw [if_neg hnone]
      have hsome : (a.saved 0).isSome = true := Option.isSome_iff_ne_none.mpr hnone
      have hover := hopened.overwritten hopen
      refine ⟨h.changed hbase (by decide) hsome hover.saved ?_ fun k hk => ?_, ?_, fun m hm => rfl⟩
      · rw [hover.get]
        rfl
      · rw [hover.get, if_neg hk]
      · simp [hsome]

theorem Restorable.dupStdout (h : Restorable base a) (hbase : Std base) (n : Int) :
    Restorable base { (a.saveOnce 1) with fds := dupStdout n (a.saveOnce 1).fds } := by
  obtain ⟨f, hf⟩ := Option.isSome_iff_exists.mp (h.std 1 (by decide))
  have hsave : Restorable base (a.saveOnce 1) ∧ ((a.saveOnce 1).saved 1).isSome = true := by
    unfold Applied.saveOnce
    split
    · rename_i hnone
      have hr := replaced_save hf
      refine ⟨h.replaced hbase (by decide) hnone hr, ?_⟩
      rw [hr.saved, Function.update_self]
      rfl
    · rename_i hsome
      exact ⟨h, Option.isSome_iff_ne_none.mpr hsome⟩
  generalize a.saveOnce 1 = b at hsave
  unfold Impl.Stsh.dupStdout
  split
  · exact hsave.1
  · by_cases hopen : (b.fds.get n.toNat).isSome = true
    · refine hsave.1.changed hbase (by decide) hsave.2 rfl ?_ fun k hk => ?_
      · show ((b.fds.dup2 n.toNat 1).get 1).isSome = true
        rw [get_dup2 hopen, if_pos rfl]
        exact hopen
      · show (b.fds.dup2 n.toNat 1).get k = _
        rw [get_dup2 hopen, if_neg hk]
    · rw [Descriptors.dup2, if_neg hopen]
      exact hsave.1

theorem replaced_errorToOutput (h : Std a.fds) : ∃ f, Replaced 2 f a.fds.lowest a (errorToOutput a) := by
  obtain ⟨f, hf⟩ := Option.isSome_iff_exists.mp (h 1 (by decide))
  have h2 := h 2 (by decide)
  have hne : 1 ≠ a.fds.lowest := Descriptors.ne_lowest (h 1 (by decide))
  have hget : (a.save 2).fds.get 1 = some f := by rw [get_save h2, if_neg hne, hf]
  refine ⟨f, Descriptors.get_lowest, saved_save h2, fun k => ?_⟩
  show ((a.save 2).fds.dup2 1 2).get k = _
  rw [get_dup2 (by rw [hget]; rfl), hget, get_save h2]

theorem Restorable.dups (h : Restorable base a) (hbase : Std base) (hto : c.stderrToStdout = true → a.saved 2 = none) :
    Restorable base (a.dups c) := by
  have hfirst : Restorable base (if c.stderrToStdout then errorToOutput a else a) := by
    split
    · rename_i htrue
      obtain ⟨f, hr⟩ := replaced_errorToOutput h.std
      exact h.replaced hbase (by decide) (hto htrue) hr
    · exact h
  rw [dups_eq]
  split
  · exact hfirst.dupStdout hbase _
  · exact hfirst

/-! ## What is forgotten -/

/-- A descriptor stays open that the shell did not have, and that it has forgotten. -/
structure Leaks (base : Descriptors File) (s : Nat) (a : Applied) : Prop where
  free : base.get s = none
  ge : 3 ≤ s
  opened : (a.fds.get s).isSome = true
  forgotten : ∀ n < 3, a.saved n ≠ some s

theorem leaks_errorToOutput (h : Restorable base a) (hbase : Std base) (hs : a.saved 2 = some s) :
    Leaks base s (errorToOutput a) := by
  obtain ⟨f, hr⟩ := replaced_errorToOutput h.std
  obtain ⟨hfree, hslot⟩ := h.slot 2 (by decide) s hs
  have hge := h.slot_ge hbase (by decide) hs
  have hopen : (a.fds.get s).isSome = true := by rw [hslot]; exact hbase 2 (by decide)
  have hne := Descriptors.ne_lowest hopen
  refine ⟨hfree, hge, ?_, fun n hn => ?_⟩
  · rw [hr.get, if_neg (by omega), if_neg hne]
    exact hopen
  · rw [hr.saved]
    by_cases hn2 : n = 2
    · rw [hn2]
      exact fun heq => hne (Option.some.inj heq).symm
    · rw [Function.update_of_ne hn2]
      exact fun heq => hn2 (h.apart n hn 2 (by decide) s heq hs)

theorem Leaks.dupStdout (h : Leaks base s a) (h1 : (a.fds.get 1).isSome = true) (n : Int) :
    Leaks base s { (a.saveOnce 1) with fds := dupStdout n (a.saveOnce 1).fds } := by
  have hge := h.ge
  have hsave : Leaks base s (a.saveOnce 1) := by
    unfold Applied.saveOnce
    split
    · have hne := Descriptors.ne_lowest h.opened
      refine ⟨h.free, h.ge, ?_, fun m hm => ?_⟩
      · rw [get_save h1, if_neg hne]
        exact h.opened
      · rw [saved_save h1]
        by_cases hm1 : m = 1
        · rw [hm1, Function.update_self]
          exact fun heq => hne (Option.some.inj heq).symm
        · rw [Function.update_of_ne hm1]
          exact h.forgotten m hm
    · exact h
  refine ⟨h.free, h.ge, ?_, hsave.forgotten⟩
  show ((Impl.Stsh.dupStdout n (a.saveOnce 1).fds).get s).isSome = true
  unfold Impl.Stsh.dupStdout
  split
  · exact hsave.opened
  · unfold Descriptors.dup2
    split
    · rw [Descriptors.get_put, if_neg (by omega)]
      exact hsave.opened
    · exact hsave.opened

theorem Leaks.restoreOne (h : Leaks base s a) (hn : n < 3) : Leaks base s (restoreOne n a) := by
  have hge := h.ge
  refine ⟨h.free, h.ge, ?_, fun m hm => ?_⟩
  · cases hs : a.saved n with
    | none =>
      have hsame : (Stsh.restoreOne n a).fds = a.fds := by rw [Stsh.restoreOne, hs]; rfl
      rw [hsame]
      exact h.opened
    | some r =>
      have hne : s ≠ r := fun heq => h.forgotten n hn (heq ▸ hs)
      have hmove : (Stsh.restoreOne n a).fds = moveTo r n a.fds := by rw [Stsh.restoreOne, hs]; rfl
      rw [hmove, moveTo, Descriptors.get_close, if_neg hne, Descriptors.dup2]
      split
      · rw [Descriptors.get_put, if_neg (by omega)]
        exact h.opened
      · exact h.opened
  · show Function.update a.saved n none m ≠ some s
    by_cases hmn : m = n
    · rw [hmn, Function.update_self]
      simp
    · rw [Function.update_of_ne hmn]
      exact h.forgotten m hm

/-- What is forgotten is not restored. -/
theorem Leaks.not_restored (h : Leaks base s a) : (redirRestore a).get s ≠ base.get s := by
  have hdone := ((h.restoreOne (n := 0) (by decide)).restoreOne (n := 1) (by decide)).restoreOne (n := 2) (by decide)
  have hopen := hdone.opened
  rw [← redirRestore_eq] at hopen
  intro heq
  rw [heq, h.free] at hopen
  exact Bool.false_ne_true hopen

theorem leaks_dups (h : Restorable base a) (hbase : Std base) (hs : a.saved 2 = some s)
    (hto : c.stderrToStdout = true) :
    Leaks base s (a.dups c) := by
  have hleaks := leaks_errorToOutput h hbase hs
  obtain ⟨f, hr⟩ := replaced_errorToOutput h.std
  have h1 : ((errorToOutput a).fds.get 1).isSome = true := by
    rw [hr.get, if_neg (Descriptors.ne_lowest (h.std 1 (by decide)))]
    exact h.std 1 (by decide)
  simp only [dups_eq, beforeDup, hto, ite_true]
  split
  · exact hleaks.dupStdout h1 _
  · exact hleaks

/-! ## When everything is undone -/

/-- The standard input is redirected. -/
def InputRedirected (c : Cmd) (o : Opens) : Prop :=
  c.stdinFile.isSome = true ∨ c.heredocBody.isSome = true ∧ o.heredoc = true

/-- No file that cannot be opened comes after a redirection that was made, and the standard error is not redirected
twice. -/
def Undoable (c : Cmd) (o : Opens) : Prop :=
  if c.stdinFile.isSome && !o.input then True
  else if c.stdoutFile.isSome && !o.output then ¬InputRedirected c o
  else if c.stderrFile.isSome && !o.error then ¬InputRedirected c o ∧ c.stdoutFile = none
  else ¬(c.stderrFile.isSome = true ∧ c.stderrToStdout = true)

/-- Where nothing is restored, nothing may be saved. -/
theorem Restorable.same_iff (h : Restorable base a) (hbase : Std base) :
    (∀ k, a.fds.get k = base.get k) ↔ ∀ n < 3, a.saved n = none := by
  constructor
  · intro hsame n hn
    by_contra hne
    obtain ⟨s, hs⟩ := Option.ne_none_iff_exists'.mp hne
    obtain ⟨hfree, hslot⟩ := h.slot n hn s hs
    have hopen := hbase n hn
    rw [← hslot, hsame, hfree] at hopen
    exact Bool.false_ne_true hopen
  · intro hnone k
    by_cases hk : k < 3
    · exact h.kept k hk (hnone k hk)
    · refine h.rest k (by omega) fun n hn => ?_
      rw [hnone n hn]
      simp

/-- What the shell has redirected, and which of its standard descriptors it has saved. -/
structure Marked (base : Descriptors File) (a : Applied) (input output error : Prop) : Prop where
  restorable : Restorable base a
  input : (a.saved 0).isSome = true ↔ input
  output : (a.saved 1).isSome = true ↔ output
  error : (a.saved 2).isSome = true ↔ error

def inputStage (c : Cmd) (t : Descriptors File) : Applied :=
  (c.stdinFile.map fun path => Applied.openOn 0 (.input path) ⟨t, fun _ => none⟩).getD ⟨t, fun _ => none⟩

def heredocStage (c : Cmd) (o : Opens) (t : Descriptors File) : Applied :=
  (c.heredocBody.map fun body => (inputStage c t).heredocOn o.heredoc body).getD (inputStage c t)

def outputStage (c : Cmd) (o : Opens) (t : Descriptors File) : Applied :=
  (c.stdoutFile.map fun path => (heredocStage c o t).openOn 1 (.output path c.stdoutAppend)).getD (heredocStage c o t)

theorem redirApply_stages (c : Cmd) (o : Opens) (t : Descriptors File) : redirApply c o t =
    if c.stdinFile.isSome && !o.input then (false, ⟨t, fun _ => none⟩)
    else if c.stdoutFile.isSome && !o.output then (false, heredocStage c o t)
    else if c.stderrFile.isSome && !o.error then (false, outputStage c o t)
    else (true, (applyFiles c o t).dups c) := rfl

theorem marked_input (h : Std t) : Marked t (inputStage c t) (c.stdinFile.isSome = true) False False := by
  have hstart := restorable_start h
  unfold inputStage
  cases c.stdinFile with
  | none => exact ⟨hstart, Iff.rfl, by simp, by simp⟩
  | some path =>
    obtain ⟨hrestorable, s, hsaved⟩ := hstart.openOn h (n := 0) (by decide) rfl (.input path)
    refine ⟨hrestorable, ?_, ?_, ?_⟩
    all_goals
      rw [Option.map_some, Option.getD_some, hsaved]
      simp

theorem marked_heredoc (h : Std t) : Marked t (heredocStage c o t) (InputRedirected c o) False False := by
  have hinput := marked_input (c := c) h
  unfold heredocStage InputRedirected
  cases c.heredocBody with
  | none => exact ⟨hinput.restorable, hinput.input.trans (by simp), hinput.output, hinput.error⟩
  | some body =>
    obtain ⟨hrestorable, hsome, hsame⟩ := hinput.restorable.heredocOn h o.heredoc body
    refine ⟨hrestorable, ?_, ?_, ?_⟩
    · rw [Option.map_some, Option.getD_some, hsome, hinput.input]
      simp
    · rw [Option.map_some, Option.getD_some, hsame 1 (by decide)]
      exact hinput.output
    · rw [Option.map_some, Option.getD_some, hsame 2 (by decide)]
      exact hinput.error

theorem marked_output (h : Std t) :
    Marked t (outputStage c o t) (InputRedirected c o) (c.stdoutFile.isSome = true) False := by
  have hheredoc := marked_heredoc (c := c) (o := o) h
  have hnone : (heredocStage c o t).saved 1 = none := by
    rw [← Option.not_isSome_iff_eq_none, hheredoc.output]
    exact id
  unfold outputStage
  cases c.stdoutFile with
  | none => exact ⟨hheredoc.restorable, hheredoc.input, by simp [hnone], hheredoc.error⟩
  | some path =>
    obtain ⟨hrestorable, s, hsaved⟩ := hheredoc.restorable.openOn h (by decide) hnone (.output path c.stdoutAppend)
    refine ⟨hrestorable, ?_, ?_, ?_⟩
    · exact hheredoc.input
    · rw [Option.map_some, Option.getD_some, hsaved]
      simp
    · exact hheredoc.error

theorem marked_files (h : Std t) : Restorable t (applyFiles c o t) ∧
    (((applyFiles c o t).saved 2).isSome = true ↔ c.stderrFile.isSome = true) := by
  have houtput := marked_output (c := c) (o := o) h
  have hnone : (outputStage c o t).saved 2 = none := by
    rw [← Option.not_isSome_iff_eq_none, houtput.error]
    exact id
  have hfiles : applyFiles c o t = (c.stderrFile.map fun path =>
      (outputStage c o t).openOn 2 (.error path)).getD (outputStage c o t) := rfl
  rw [hfiles]
  cases c.stderrFile with
  | none => exact ⟨houtput.restorable, by simp [hnone]⟩
  | some path =>
    obtain ⟨hrestorable, s, hsaved⟩ := houtput.restorable.openOn h (by decide) hnone (.error path)
    refine ⟨hrestorable, ?_⟩
    rw [Option.map_some, Option.getD_some, hsaved]
    simp

theorem forall_lt_three {p : Nat → Prop} : (∀ n < 3, p n) ↔ p 0 ∧ p 1 ∧ p 2 := by
  refine ⟨fun h => ⟨h 0 (by decide), h 1 (by decide), h 2 (by decide)⟩, fun h n hn => ?_⟩
  have hcases : n = 0 ∨ n = 1 ∨ n = 2 := by omega
  obtain rfl | rfl | rfl := hcases
  · exact h.1
  · exact h.2.1
  · exact h.2.2

theorem Marked.same_iff {i p e : Prop} (h : Marked base a i p e) (hbase : Std base) :
    (∀ k, a.fds.get k = base.get k) ↔ ¬i ∧ ¬p ∧ ¬e := by
  rw [h.restorable.same_iff hbase, forall_lt_three, ← h.input, ← h.output, ← h.error]
  simp

/-- What `redir_restore` comes to depends on what the descriptors refer to only. -/
theorem redirRestore_congr {u u' : Descriptors File} (h : u.get = u'.get) (saved : Nat → Option Nat) :
    (redirRestore ⟨u, saved⟩).get = (redirRestore ⟨u', saved⟩).get := by
  have hone : ∀ (n : Nat) {u u' : Descriptors File}, u.get = u'.get →
      (((saved n).map fun s => moveTo s n u).getD u).get = (((saved n).map fun s => moveTo s n u').getD u').get := by
    intro n u u' h
    cases saved n with
    | none => exact h
    | some s =>
      funext k
      simp only [Option.map_some, Option.getD_some, moveTo, Descriptors.get_close, Descriptors.dup2, h]
      split
      · rfl
      · split
        · rw [Descriptors.get_put, Descriptors.get_put, h]
        · rw [h]
  exact hone 2 (hone 1 (hone 0 h))

theorem afterInProcess_congr {body : Descriptors File → Descriptors File} (hbody : ∀ u, (body u).get = u.get) :
    (afterInProcess body c o t).get = (afterInProcess id c o t).get := by
  unfold afterInProcess
  split
  · dsimp only
    split
    · exact redirRestore_congr (hbody _) _
    · rfl
  · exact hbody t

/-- With its standard descriptors open, the shell has just the descriptors it had after a builtin or a function whose
body leaves them as they are, just if no file that cannot be opened comes after a redirection, and the standard error
is not redirected twice. -/
theorem redirections_undone_iff {body : Descriptors File → Descriptors File} (h : Std t)
    (hbody : ∀ u, (body u).get = u.get) : (∀ k, (afterInProcess body c o t).get k = t.get k) ↔ Undoable c o := by
  rw [afterInProcess_congr hbody]
  by_cases hneed : needRedir c = true
  · rw [afterInProcess, if_pos hneed, redirApply_stages, Undoable]
    dsimp only
    split
    · exact iff_of_true (fun _ => rfl) trivial
    split
    · refine (marked_heredoc h).same_iff h |>.trans ?_
      simp
    split
    · refine (marked_output h).same_iff h |>.trans ?_
      simp
    · obtain ⟨hrestorable, herror⟩ := marked_files (c := c) (o := o) h
      by_cases htwice : c.stderrFile.isSome = true ∧ c.stderrToStdout = true
      · obtain ⟨s, hs⟩ := Option.isSome_iff_exists.mp (herror.mpr htwice.1)
        have hleaks := leaks_dups (c := c) hrestorable h hs htwice.2
        exact iff_of_false (fun hsame => hleaks.not_restored (hsame s)) fun hnot => hnot htwice
      · refine iff_of_true (fun k => get_redirRestore (hrestorable.dups h fun hto => ?_) h k) htwice
        rw [← Option.not_isSome_iff_eq_none, herror]
        exact fun hfile => htwice ⟨hfile, hto⟩
  · obtain ⟨-, hto, hopen⟩ := childFiles_of_not_needRedir (by simpa using hneed) o t
    rw [afterInProcess, if_neg hneed, Undoable, hopen.2.1, hopen.2.2, hto]
    exact iff_of_true (fun _ => rfl) (by simp)

/-- `cmd <file >file`. -/
theorem input_and_output_undone : (afterInProcess id { plainCmd with stdinFile := some [102], stdoutFile := some [103] }
    ⟨true, true, true, true⟩ standard).get = standard.get :=
  funext ((redirections_undone_iff std_standard fun _ => rfl).mpr (by simp [Undoable, plainCmd]))

/-- After `cmd 2>file 2>&1` the standard error is the file, and the descriptor 4 is open; after `cmd <file >other`
where `other` cannot be opened, the standard input is the file. -/
theorem redirections_stay :
    (afterInProcess id { plainCmd with stderrFile := some [102], stderrToStdout := true } ⟨true, true, true, true⟩
      standard).get 2 = some (.error [102]) ∧
    (afterInProcess id { plainCmd with stderrFile := some [102], stderrToStdout := true } ⟨true, true, true, true⟩
      standard).get 4 = some (.given 2) ∧
    (afterInProcess id { plainCmd with stdinFile := some [102], stdoutFile := some [103] } ⟨true, true, false, true⟩
      standard).get 0 = some (.input [102]) := by
  decide +kernel

end Lorica.Proof.Stsh

import Lorica.Proof.Accounts.Agree

/-!
# Accounts that are made in part

`useradd` appends to three files and takes nothing back. A failure leaves the files as they were
just if not even a part of the first line was written (`all_or_nothing_iff`); otherwise a user may
be listed without a password, and the name is taken when the program is run again.
-/

namespace Lorica.Proof.Accounts

open Lorica.Impl.Accounts

/-- A run that reports a failure leaves the three files as they were. -/
def AllOrNothing (args : List Arg) (g : Given) (files : Files) : Prop :=
  ∀ e after, useradd args g files = (.error e, after) → after = files

/-- The line is written, and all of it. -/
def Whole (write : Option Nat) (line : Bytes) : Prop := ∃ k, write = some k ∧ line.length ≤ k

variable {write : Option Nat} {line : Bytes} {c : Created} {g : Given}

theorem appendLine_whole (file : Option Bytes) : (appendLine write file line).2 = true ↔ Whole write line := by
  cases write with
  | none => simp [appendLine, Whole]
  | some k => simp [appendLine, Whole]

/-- A line of which something was written is in the file. -/
theorem appendLine_ne {file : Bytes} {k : Nat} (hline : line ≠ []) :
    (appendLine (some (k + 1)) (some file) line).1 ≠ some file := by
  intro h
  have hlen := congrArg List.length (Option.some.inj h)
  have hpos := List.length_pos_of_ne_nil hline
  simp only [Option.getD_some, List.length_append, List.length_take] at hlen
  omega

theorem passwdLine_ne_nil (username : Bytes) (uid : Int) (shell : Bytes) : passwdLine username uid shell ≠ [] := by
  simp [passwdLine, lineBuf]

/-- Unless all three lines are written, `/etc/passwd` is what the first one has made of it. -/
theorem record_fails (files : Files) (h : ¬ (Whole g.passwdWrite (passwdLine c.username c.uid c.shell) ∧
      Whole g.shadowWrite (shadowLine c.username c.hash.text) ∧ Whole g.groupWrite (groupLine c.username c.uid))) :
    ∃ e after, record c g files = (.error e, after) ∧
      after.passwd = (appendLine g.passwdWrite files.passwd (passwdLine c.username c.uid c.shell)).1 := by
  unfold record
  dsimp only
  split
  · exact ⟨_, _, rfl, rfl⟩
  rename_i hp
  split
  · exact ⟨_, _, rfl, rfl⟩
  rename_i hs
  split
  · exact ⟨_, _, rfl, rfl⟩
  rename_i hr
  rw [Bool.not_eq_false, appendLine_whole] at hp hs hr
  exact absurd ⟨hp, hs, hr⟩ h

theorem record_whole (hp : Whole g.passwdWrite (passwdLine c.username c.uid c.shell))
    (hs : Whole g.shadowWrite (shadowLine c.username c.hash.text))
    (hr : Whole g.groupWrite (groupLine c.username c.uid)) (files : Files) : (record c g files).1 = .ok c := by
  unfold record
  dsimp only
  rw [(appendLine_whole _).mpr hp, (appendLine_whole _).mpr hs, (appendLine_whole _).mpr hr]
  rfl

/-- When a failure leaves the files as they were: if nothing of the first line is written, or all three lines are. -/
theorem all_or_nothing_iff (args : List Arg) (g : Given) (files : Files) : AllOrNothing args g files ↔
    ∀ c, prepare args g files = .ok c → (g.passwdWrite = none ∨ g.passwdWrite = some 0) ∨
      Whole g.passwdWrite (passwdLine c.username c.uid c.shell) ∧
      Whole g.shadowWrite (shadowLine c.username c.hash.text) ∧ Whole g.groupWrite (groupLine c.username c.uid) := by
  constructor
  · intro h c hc
    by_contra hnot
    rw [not_or, not_or] at hnot
    obtain ⟨⟨hnone, hzero⟩, hnot⟩ := hnot
    obtain ⟨-, -, file, hfile, -⟩ := prepared_of_prepare hc
    obtain ⟨e, after, hrecord, hpasswd⟩ := record_fails files hnot
    obtain rfl := h e after (by rw [useradd, hc]; exact hrecord)
    obtain ⟨k, hk⟩ := Option.ne_none_iff_exists'.mp hnone
    cases k with
    | zero => exact hzero hk
    | succ k =>
      rw [hk, hfile] at hpasswd
      exact appendLine_ne (passwdLine_ne_nil _ _ _) hpasswd.symm
  · intro h e after huse
    rw [useradd] at huse
    cases hc : prepare args g files with
    | error e' =>
      rw [hc] at huse
      exact (congrArg Prod.snd huse).symm
    | ok c =>
      rw [hc] at huse
      dsimp only at huse
      rcases h c hc with hnothing | ⟨hp, hs, hr⟩
      · obtain ⟨-, -, file, hfile, -⟩ := prepared_of_prepare hc
        obtain ⟨passwd, shadow, group⟩ := files
        obtain rfl : passwd = some file := hfile
        rcases hnothing with hw | hw
        · simp [record, appendLine, hw] at huse
          exact huse.2.symm
        · simp [record, appendLine, hw, passwdLine_ne_nil] at huse
          exact huse.2.symm
      · have hok := record_whole hp hs hr files
        rw [huse] at hok
        cases hok

/-- If `/etc/shadow` cannot be written, the user is listed without a password, and the name is taken from then on. -/
theorem useradd_half_made : ∃ files after,
    useradd (sampleArgs defaultShell) { sampleGiven with shadowWrite := none } files = (.error .shadowFailed, after) ∧
      after ≠ files ∧ after.shadow = files.shadow ∧
      (useradd (sampleArgs defaultShell) sampleGiven after).1 = .error (.taken (ascii "ada")) := by
  refine ⟨⟨some (text samplePasswd), some (text sampleShadow), none⟩,
    { passwd := _, shadow := _, group := none }, rfl, ?_⟩
  decide

end Lorica.Proof.Accounts

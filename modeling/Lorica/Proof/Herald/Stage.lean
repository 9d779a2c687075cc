import Lorica.Proof.Herald.Begin
import Lorica.Proof.Herald.Ops

/-!
# herald: what a commit moves

`txn_commit` moves whatever it finds in the stage tree. `txn_begin` makes the
stage directory but does not look into it: it relies on the recovery before it,
which does nothing without a state file. A clean-up that was interrupted after it
had removed the state file leaves the files of an aborted transaction there, for
the next one to commit.

`commit_moves_own`: in every history in which no transaction is begun over such
files, a commit moves only what its own transaction has staged.
-/

namespace Lorica.Proof.Herald

open Lorica.Impl.Herald Posix List

variable {v : Env} {s s' : FileSys} {p q : Path} {own : List Path}

/-! ## What the parts of a commit bring into the stage -/

/-- A name without `..` stays below where it starts. -/
theorem prefix_foldl_follow {cs : List Bytes} (h : dotdot ∉ cs) (p : Path) : p <+: cs.foldl follow p := by
  induction cs generalizing p with
  | nil => exact prefix_refl p
  | cons c cs ih =>
    rw [mem_cons, not_or] at h
    refine List.IsPrefix.trans ?_ (ih h.2 (follow p c))
    unfold follow
    split
    · exact prefix_refl p
    · rw [if_neg (Ne.symm h.1)]
      exact prefix_append _ _

theorem dotdot_not_mem_of_safe {cs : List Bytes} (h : safeComponents cs = true) : dotdot ∉ cs := by
  induction cs with
  | nil => exact not_mem_nil
  | cons c cs ih =>
    cases cs with
    | nil =>
      have := of_decide_eq_true h
      simpa using Ne.symm this.2
    | cons c' cs =>
      rw [safeComponents, Bool.and_eq_true_iff] at h
      · have := of_decide_eq_true h.1
        exact not_mem_cons_of_ne_of_not_mem (Ne.symm this.2.2) (ih h.2)
      · simp

/-- A backup is not in the stage. -/
theorem backup_not_staged {rel : Bytes} (h : safeRel rel = true) :
    ¬ stageP <+: (resolve (txnBackup ++ slash :: rel)).path := by
  have hpre : backupP <+: (resolve (txnBackup ++ slash :: rel)).path := by
    have hsafe := dotdot_not_mem_of_safe (Bool.and_eq_true_iff.mp h).2
    exact prefix_foldl_follow hsafe backupP
  exact fun hs => not_prefix_of_prefix hpre (by decide) (by decide) hs

theorem uses_journal (op : UInt8) (path : Bytes) : Uses (Spares (stageP <+: ·)) (journal op path) := by
  unfold journal
  split
  · exact .pure _
  · refine .bind (uses_writeFull (by decide)) fun ok => ?_
    split
    · exact .call trivial
    · exact .pure _

theorem uses_prepareTarget (rel : Bytes) : Uses (Spares (stageP <+: ·)) (prepareTarget rel) := by
  unfold prepareTarget
  simp only
  split
  · exact .pure _
  · rename_i hsafe
    have hbak : ¬ stageP <+: (resolve (txnBackup ++ slash :: rel)).path :=
      backup_not_staged (by simp only [not_or, Bool.not_eq_false] at hsafe; exact hsafe.1)
    have hrest : ∀ op, Uses (Spares (stageP <+: ·))
        (do if ← journal op rel then parentDirs (slash :: rel) else pure false) :=
      fun op => .bind (uses_journal _ _) fun ok => by
        split
        · exact uses_parentDirs (fun _ => trivial) _
        · exact .pure _
    refine .bind (.call trivial) fun r => ?_
    split
    · refine .bind ((uses_copyFile _ _).mono fun _ => CopyOp.spares hbak) fun ok => ?_
      split
      · exact hrest _
      · exact .pure _
    · exact .pure _
    · exact hrest _
    · exact .pure _

theorem uses_applyDelete (rel : Bytes) : Uses (Spares (stageP <+: ·)) (applyDelete rel) := by
  unfold applyDelete
  simp only
  split
  · exact .pure _
  · refine .bind (.call trivial) fun r => ?_
    split
    · exact .pure _
    · exact .pure _
    · refine .bind (uses_prepareTarget _) fun ok => ?_
      split
      · refine .bind (.call trivial) fun r => ?_
        split <;> exact .pure _
      · exact .pure _

/-! ## Moving -/

/-- The transaction has staged the file, or has moved it here from where it was
staged: a staged path may itself lead into the stage. -/
inductive Owned (own : List Path) : Path → Prop
  | staged {p : Path} (h : p ∈ own) : Owned own p
  | moved {p : Path} (h : Owned own (stageP ++ p)) : Owned own p

/-- All files in the stage are the transaction's own. -/
def StageOwned (own : List Path) (s : FileSys) : Prop :=
  ∀ q b, s.get (stageP ++ q) = some (.file b) → Owned own q

/-- A rename finds only files of its own in the stage. -/
def Moves (own : List Path) (o : Op) (s : FileSys) : Prop :=
  ∀ src dst, o = .call (.rename src dst) → StageOwned own s

theorem StageOwned.moves {o : Op} (h : StageOwned own s) : Moves own o s := fun _ _ _ => h

theorem StageOwned.wp {α : Type} {prog : Sys α} (hs : StageOwned own s) (h : Uses (Spares (stageP <+: ·)) prog) :
    Sys.WP v prog s (fun _ s' => StageOwned own s') (Moves own) := by
  have hwp : Sys.WP v prog s (fun _ s' => StageOwned own s → StageOwned own s')
      (fun o s' => (StageOwned own s → StageOwned own s') ∧ (Spares (stageP <+: ·)) o) :=
    Uses.wp (M := machine) (R := fun s s' => StageOwned own s → StageOwned own s') h (fun _ h => h)
      (fun _ _ _ h h' hs => h' (h hs)) fun o c s ho _ hs q b hb => hs q b (step_spares ho (prefix_append _ _) c hb)
  exact WP.mono hwp (fun _ _ h => h hs) fun _ _ h => (h.1 hs).moves

theorem NoRename.wp {α : Type} {prog : Sys α} (h : Uses NoRename prog) :
    Sys.WP v prog s (fun _ _ => True) (Moves own) := by
  have hwp : Sys.WP v prog s (fun _ _ => True) (fun o _ => True ∧ NoRename o) :=
    h.wp (R := fun _ _ => True) (fun _ => trivial) (fun _ _ _ _ _ => trivial) fun _ _ _ _ _ => trivial
  exact WP.mono hwp (fun _ _ h => h) fun _ _ h src dst e => absurd e (h.2 src dst)

theorem moveTarget_owned_wp (hpv : ValidPath p) (hne : p ≠ []) (hs : StageOwned own s) :
    Sys.WP v (moveTarget (absStr (stageP ++ p)) (str p)) s (fun _ s' => StageOwned own s') (Moves own) := by
  refine WP.seq (hs.wp (uses_prepareTarget _)) (fun ok s1 h1 => ?_)
  cases ok with
  | false => exact h1
  | true =>
    simp only [ite_true]
    split
    · exact h1
    refine Sys.WP.call h1.moves (fun s2 h2 => ?_) fun e _ => h1
    obtain ⟨b, hb, -, hg⟩ := rename_sem hpv hne h2
    intro q c hc
    rw [hg] at hc
    split at hc
    · rename_i e
      exact .moved (e ▸ h1 p b hb)
    · split at hc
      · cases hc
      · exact h1 q c hc

/-- All renames of a commit are of files of its own, if it starts with no others
in the stage. -/
theorem txnCommit_owned_wp (hs : StageOwned own s) : Sys.WP v txnCommit s (fun _ _ => True) (Moves own) := by
  have hbody : ∀ pending s, StageOwned own s →
      Sys.WP v (commitBody pending) s (fun _ _ => True) (Moves own) := fun pending s hs => by
    refine Sys.WP.openRead hs.moves fun r _ => ?_
    cases r with
    | error e => trivial
    | ok node =>
      refine WP.seq (hs.wp (uses_forLines (fun l => ?_) _)) (fun ok s1 h1 => ?_)
      · split
        · exact .pure _
        · exact uses_applyDelete _
      cases ok with
      | false => trivial
      | true =>
        have happly : Sys.WP v (applyStageDir txnPathMax (absStr (stageP ++ [])) (str [])) s1 _ _ :=
          applyStageDir_keeps (fun _ _ h => h.moves) (fun _ _ h => h.moves)
            (fun _ _ _ hpv hne _ h => moveTarget_owned_wp hpv hne h) .nil h1
        refine WP.seq happly (fun ok s2 h2 => ?_)
        cases ok with
        | false => trivial
        | true =>
          exact Sys.WP.sync h2.moves
            (WP.post (h2.wp (uses_writeState (by decide) (by decide) _)) (fun _ _ _ => trivial))
  refine WP.bind (access_wp _) (fun pending s1 hs1 => ?_) fun _ _ h => h.1 ▸ hs.moves
  subst hs1
  refine WP.seq (hs.wp (uses_writeState (by decide) (by decide) _)) (fun ok s2 h2 => ?_)
  cases ok with
  | false => trivial
  | true =>
    refine Sys.WP.call h2.moves (fun s3 h3 => ?_) fun e _ => trivial
    obtain rfl := openAppend_sem h3
    refine WP.seq (hbody pending s3 h2) (fun rc s4 _ => ?_)
    refine WP.seq (NoRename.wp (.call nofun)) (fun _ s5 _ => ?_)
    cases rc with
    | false =>
      exact WP.seq (NoRename.wp (uses_rollback.mono fun _ h => h.noRename)) (fun _ _ _ => trivial)
    | true =>
      cases pending with
      | true => trivial
      | false =>
        exact WP.seq (NoRename.wp ((uses_removeTree _ _).mono fun _ => RemoveOp.noRename)) (fun _ _ _ => trivial)

/-! ## Histories -/

/-- The files of the system, and what the transaction under way has staged since
its `txn_begin`, if there is one. -/
structure Session where
  fs : FileSys
  own : Option (List Path)

/-- One event of a history: a transaction is begun, where no file is left in the
stage without a state file; it stages a file; or a run of any of the others
crashes or ends, and with it the transaction. -/
inductive Session.Step (s : Session) : Session → Prop
  | begin {fs' : FileSys} (hleft : s.fs.get stateP = none → stagedPaths s.fs = [])
      (h : Sys.Can hostile txnBegin s.fs true fs') : Step s ⟨fs', some [dbP]⟩
  | stage {fs' : FileSys} {own : List Path} (p : Path) (ho : s.own = some own)
      (h : ∀ q b, fs'.get (stageP ++ q) = some (.file b) → s.fs.get (stageP ++ q) = some (.file b) ∨ q = p) :
      Step s ⟨fs', some (p :: own)⟩
  | beginStops {fs' : FileSys} (h : txnBegin.Reaches hostile.Allows s.fs fs') : Step s ⟨fs', none⟩
  | commit {fs' : FileSys} (h : txnCommit.Reaches hostile.Allows s.fs fs') : Step s ⟨fs', none⟩
  | abort {fs' : FileSys} (h : txnRecover.Reaches hostile.Allows s.fs fs') : Step s ⟨fs', none⟩
  | rollback {fs' : FileSys} (h : txnRollback.Reaches hostile.Allows s.fs fs') : Step s ⟨fs', none⟩
  | finalize {fs' : FileSys} (h : txnFinalize.Reaches hostile.Allows s.fs fs') : Step s ⟨fs', none⟩
  | stop : Step s ⟨s.fs, none⟩

/-- A transaction that has been begun has nothing in the stage but the database. -/
theorem txnBegin_owned_wp (h : s.get stateP = none → stagedPaths s = []) :
    Sys.Ends v txnBegin s (fun ok s' => ok = true → StageOwned [dbP] s') := by
  refine WP.thenEnds txnRecover_zero_wp fun rc s1 hz => ?_
  by_cases hrc : rc = 0
  · subst hrc
    have hnone : ∀ q b, s1.get (stageP ++ q) ≠ some (.file b) := fun q b hb => by
      rcases hz rfl with ⟨rfl, hn⟩ | hn
      · have := mem_stagedPaths.mpr ⟨b, hb⟩
        rw [h hn] at this
        cases this
      · rw [FileSys.get_below_none hn (mem_ancestors.mpr ⟨stage_inside q, by simp [stageP]⟩)] at hb
        cases hb
    refine WP.ends beginIn_wp fun ok s2 hb _ q b hq => ?_
    exact .staged (mem_singleton.mpr ((hb.1.stage q b hq).resolve_left (hnone q b)))
  · change Sys.WP v (if rc = 0 then beginIn else pure false) s1 _ _
    rw [if_neg hrc]
    exact fun e => (Bool.false_ne_true e).elim

theorem Owned.cons {p : Path} (q : Path) (h : Owned own p) : Owned (q :: own) p := by
  induction h with
  | staged h => exact .staged (mem_cons_of_mem _ h)
  | moved _ ih => exact .moved ih

theorem Session.owned {s0 s : Session} (h0 : s0.own = none) (h : Relation.ReflTransGen Session.Step s0 s)
    (ho : s.own = some own) : StageOwned own s.fs := by
  induction h generalizing own with
  | refl => rw [h0] at ho; cases ho
  | tail _ hstep ih =>
    cases hstep with
    | begin hleft hb =>
      cases ho
      exact WP.can (txnBegin_owned_wp hleft) hb rfl
    | stage p ho' hst =>
      cases ho
      intro q b hb
      rcases hst q b hb with hq | rfl
      · exact (ih ho' q b hq).cons p
      · exact .staged mem_cons_self
    | _ => cases ho

/-- In every history that starts without a transaction under way: whenever a
commit renames a file of the stage, the file is one that its transaction has
staged since it was begun. -/
theorem commit_moves_own {s₀ s : Session} {cs : List Choice} {src dst b : Bytes} (h₀ : s₀.own = none)
    (h : Relation.ReflTransGen Session.Step s₀ s) (ho : s.own = some own) (hcs : ∀ c ∈ cs, hostile.Allows c)
    (hr : txnCommit.run cs s.fs = .crashed (.call (.rename src dst)) s')
    (hb : s'.get (resolve src).path = some (.file b))
    (hsrc : (resolve src).path = stageP ++ p) : Owned own p :=
  WP.run_crashed (txnCommit_owned_wp (Session.owned h₀ h ho)) hcs hr src dst rfl p b (hsrc ▸ hb)

set_option maxRecDepth 10000 in
/-- A transaction is begun in an empty system, `upgrade` is what it then is, and
its commit comes to the rename of `bin/new`. -/
theorem commit_moves_own_upgrade : ∃ s' : FileSys, txnCommit.run (replicate 39 .ok) upgrade =
      .crashed (.call (.rename (absStr (stageP ++ [ascii "bin", ascii "new"])) (ascii "/bin/new"))) s' ∧
    Owned [[ascii "bin", ascii "new"], dbP] [ascii "bin", ascii "new"] := by
  have hdone : txnBegin.run (replicate 60 .ok) (.ofList []) =
      .done true (txnBegin.run (replicate 60 .ok) (.ofList [])).state := Outcome.eq_done (by decide)
  have hbegin : Session.Step ⟨.ofList [], none⟩ ⟨_, some [dbP]⟩ :=
    .begin (by decide) (Can.of_run (by decide) hdone)
  have hstage : ∀ fs, Session.Step ⟨fs, some [dbP]⟩ ⟨upgrade, some [[ascii "bin", ascii "new"], dbP]⟩ := fun fs =>
    .stage [ascii "bin", ascii "new"] rfl fun q b hb => by
      have hq : q ∈ stagedPaths upgrade := mem_stagedPaths.mpr ⟨b, hb⟩
      rw [show stagedPaths upgrade = [[ascii "bin", ascii "new"]] by decide, mem_singleton] at hq
      exact .inr hq
  have hrun := Outcome.eq_crashed_of_pending (r := txnCommit.run (replicate 39 .ok) upgrade)
    (o := .call (.rename (absStr (stageP ++ [ascii "bin", ascii "new"])) (ascii "/bin/new"))) (by decide)
  exact ⟨_, hrun, commit_moves_own (b := ascii "new") rfl (.tail (.single hbegin) (hstage _)) rfl
    (by decide) hrun
    (by decide) (by decide)⟩

/-- A transaction that has staged `bin/x` and is to be aborted. -/
def aborted : FileSys := .ofList
  [(stateP, .file (stateBytes statePrepared)), (journalP, .file []), (deleteP, .file []),
    (stageP ++ [ascii "bin", ascii "x"], .file (ascii "x"))]

/-- A clean-up that lists the state file first, and is interrupted when it has
removed it. -/
def cut : List Choice := replicate 3 .ok ++
  [.order [ascii "state", ascii "stage", ascii "delete", ascii "journal"]] ++ replicate 2 .ok

def abortCut : FileSys := (txnRecover.run cut aborted).state

/-- Another transaction, begun after that. -/
def begunOver : FileSys := (txnBegin.run (replicate 60 .ok) abortCut).state

set_option maxRecDepth 10000 in
/-- It stages nothing and is committed: `bin/x` is in the root. -/
theorem commit_moves_aborted :
    txnRecover.Crashes sound.Allows aborted abortCut ∧ Sys.Can sound txnBegin abortCut true begunOver ∧
      ∃ s', Sys.Can sound txnCommit begunOver true s' ∧ rootFiles aborted [ascii "bin", ascii "x"] = none ∧
        rootFiles s' [ascii "bin", ascii "x"] = some (ascii "x") := by
  obtain ⟨o, hr⟩ := Outcome.eq_crashed (r := txnRecover.run cut aborted) (by decide)
  have hbegin := Outcome.eq_done (r := txnBegin.run (replicate 60 .ok) abortCut) (a := true) (by decide)
  have hcommit := Outcome.eq_done (r := txnCommit.run (replicate 80 .ok) begunOver) (a := true) (by decide)
  exact ⟨⟨_, o, by decide, hr⟩, Can.of_run (by decide) hbegin, _,
    Can.of_run (by decide) hcommit,
    by decide, by decide⟩

end Lorica.Proof.Herald

import Lorica.Proof.Herald.Commit

/-!
# herald: commits are atomic

`commit_crash_recovers`: a commit of a clean transaction may crash anywhere; one
run of `txn_recover` then leaves the root files as they were before or as the
commit was to leave them, and the state file tells which. `Reversible.failRestores`: a
commit that fails is undone by the `txn_abort` that follows.
-/

namespace Lorica.Proof.Herald

open Lorica.Impl.Herald Posix

/-- Any call may fail, and a write is made whole or not at all. -/
def faulty : Env := ⟨true, false⟩

/-- No call fails. -/
def sound : Env := ⟨false, true⟩

/-- Any call may fail, and any write may stop short. -/
def hostile : Env := ⟨true, true⟩

variable {s s' : FileSys} {o : Op} {cs : List Choice} {σ : Nat → Choice}

/-- A commit that has not been decided is undone by one recovery. -/
theorem recover_undoable {orig : Path → Option Bytes} {state : Bytes} (ho : Open state)
    (h : Undoable orig (some (.file (stateBytes state))) s) (hσ : ∀ n, sound.Allows (σ n)) :
    rootFiles (txnRecover.exec σ s).2 = orig := by
  obtain ⟨recs, hlog⟩ := h.logged
  exact (WP.exec_done (txnRecover_undo_wp ho h.state hlog) hσ).2.1 rfl

/-- A crash of a commit, and the state in which recovery finds it: the root files
are those of before, or the applied ones. In state `committed` recovery also
removes the update-pending marker. -/
theorem commit_crash_recovers (hb : Begun s) (hc : Clean s) (hcs : ∀ c ∈ cs, faulty.Allows c)
    (hr : txnCommit.run cs s = .crashed o s') (hσ : ∀ n, sound.Allows (σ n)) :
    (Says s' statePrepared ∨ Says s' stateApplying) ∧ rootFiles (txnRecover.exec σ s').2 = rootFiles s ∨
      Says s' stateCommitted ∧ rootFiles (txnRecover.exec σ s').2 = unmarked (applied s) ∨
      s'.get stateP = none ∧ rootFiles (txnRecover.exec σ s').2 = applied s ∨
      Says s' statePending ∧ rootFiles (txnRecover.exec σ s').2 = applied s := by
  cases WP.run_crashed (txnCommit_wp rfl hb hc.reversible) hcs hr with
  | undone state ho h =>
    have hund : Undoable (rootFiles s) (some (.file (stateBytes state))) s' :=
      ⟨h.state, h.logged.imp fun _ h => h.1⟩
    refine .inl ⟨?_, recover_undoable ho hund hσ⟩
    rcases ho with rfl | rfl
    · exact .inl h.state
    · exact .inr h.state
  | pending h =>
    have hrec := (WP.exec_done (txnRecover_pending_wp h.state) hσ).1
    exact .inr (.inr (.inr ⟨h.state, by rw [hrec, h.root]⟩))
  | cleaning s1 h hp =>
    have hroot : rootFiles s' = applied s := (rootFiles_prunes hp).trans h.root
    rcases hp stateP with e | ⟨-, hn⟩
    · have hst : Says s' stateCommitted := e.trans h.state
      have hrec := (WP.exec_done (txnRecover_committed_wp hst) hσ).2.1 rfl
      exact .inr (.inl ⟨hst, by rw [hrec, hroot]⟩)
    · have hrec := (WP.exec_done (txnRecover_none_wp hn) hσ).1
      exact .inr (.inr (.inl ⟨hn, by rw [hrec, hroot]⟩))

/-- A transaction that replaces `bin/old` by `bin/new`. -/
def upgrade : FileSys := .ofList
  [(stateP, .file (stateBytes statePrepared)), (journalP, .file []), (deleteP, .file (ascii "bin/old\n")),
    (stageP ++ [ascii "bin", ascii "new"], .file (ascii "new")), ([ascii "bin", ascii "old"], .file (ascii "old"))]

set_option maxRecDepth 10000 in
/-- It crashes between the delete and the move. -/
theorem commit_crash_recovers_upgrade : ∃ o s', txnCommit.run (List.replicate 39 .ok) upgrade = .crashed o s' ∧
      ((Says s' statePrepared ∨ Says s' stateApplying) ∧
          rootFiles (txnRecover.exec (fun _ => .ok) s').2 = rootFiles upgrade ∨
        Says s' stateCommitted ∧ rootFiles (txnRecover.exec (fun _ => .ok) s').2 = unmarked (applied upgrade) ∨
        s'.get stateP = none ∧ rootFiles (txnRecover.exec (fun _ => .ok) s').2 = applied upgrade ∨
        Says s' statePending ∧ rootFiles (txnRecover.exec (fun _ => .ok) s').2 = applied upgrade) := by
  obtain ⟨o, ho⟩ := Outcome.eq_crashed (r := txnCommit.run (List.replicate 39 .ok) upgrade) (by decide)
  exact ⟨o, _, ho, commit_crash_recovers (by decide) (by decide) (by decide) ho
    fun _ => trivial⟩

/-- A transaction that changes nothing, in a root that has the update-pending
marker. -/
def marked : FileSys := .ofList
  [(stateP, .file (stateBytes statePrepared)), (journalP, .file []), (deleteP, .file []), (stageP, .dir),
    (pendingP, .file (ascii "1"))]

set_option maxRecDepth 10000 in
/-- The marker of `marked` is not left as the commit was to leave it: recovery
in state `committed` removes it. -/
theorem commit_crash_drops_marker :
    Begun marked ∧ Clean marked ∧ stagedPaths marked = [] ∧ deletedPaths marked = [] ∧
      ∃ o s', txnCommit.run (List.replicate 27 .ok) marked = .crashed o s' ∧ Says s' stateCommitted ∧
        rootFiles (txnRecover.exec (fun _ => .ok) s').2 ≠ applied marked := by
  refine ⟨by decide, by decide, by decide, by decide, ?_⟩
  obtain ⟨o, ho⟩ := Outcome.eq_crashed (r := txnCommit.run (List.replicate 27 .ok) marked) (by decide)
  refine ⟨o, _, ho, by decide, fun h => ?_⟩
  have hp := congrFun h pendingP
  revert hp
  decide

/-! ## Failed commits -/

theorem txnAbort_exec : (txnAbort.exec σ s).2 = (txnRecover.exec σ s).2 := by
  rw [txnAbort, Prog.exec_bind_pure]

/-- Every commit of the transaction that fails is undone by the abort that
follows it. -/
def FailRestores (s : FileSys) : Prop :=
  ∀ (cs : List Choice) (s' : FileSys) (σ : Nat → Choice), (∀ c ∈ cs, faulty.Allows c) →
    txnCommit.run cs s = .done false s' → (∀ n, sound.Allows (σ n)) →
    rootFiles (txnAbort.exec σ s').2 = rootFiles s

theorem Reversible.failRestores (hb : Begun s) (hc : Reversible faulty s) : FailRestores s := by
  intro cs s' σ hcs hr hσ
  rw [txnAbort_exec]
  cases WP.run_done (txnCommit_wp rfl hb hc) hcs hr with
  | failed state ho h => exact recover_undoable ho h hσ

end Lorica.Proof.Herald

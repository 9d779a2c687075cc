import Lorica.Impl.Herald.Main
import Lorica.Proof.Herald.Atomicity

/-!
# herald: a pending kernel update

A commit that has staged the update-pending marker ends in state `pending-kernel`,
with its journal still there, and later invocations decide: `recover complete`
writes the state `committed`, removes the marker and cleans up, and may crash at
any of these; `recover rollback` restores the root.

`Decision s₀ s` is what holds in between, wherever a finalization has stopped.
`pending_resolves`: when the transaction directory is gone, the root is the new
one without the marker, or the old one.
-/

namespace Lorica.Proof.Herald

open Lorica.Impl.Herald Posix

variable {v : Env} {s s' s₀ : FileSys}

/-- Where the decision about the transaction in `s₀` stands: none yet, for the
update, or made and cleaned up. -/
inductive Decision (s₀ s : FileSys) : Prop
  | pending (h : Committed s₀ statePending s) (hfit : Fits txnP s)
  | committed (hs : Says s stateCommitted) (hfit : Fits txnP s)
      (hroot : rootFiles s = applied s₀ ∨ rootFiles s = unmarked (applied s₀))
  | resolved (hn : s.get txnP = none)
      (hroot : rootFiles s = unmarked (applied s₀) ∨ rootFiles s = rootFiles s₀)

/-! ## The names in the transaction directory keep fitting -/

theorem Fits.stateWritten (h : Fits txnP s) (hs : SameBut StateFile s s') : Fits txnP s' := fun q hq hn => by
  by_cases hst : StateFile q
  · rcases hst with rfl | rfl <;> decide
  · exact h q hq (hs q hst ▸ hn)

theorem Fits.inside (h : Fits txnP s) (hs : SameBut Outside s s') : Fits txnP s' := fun q hq hn =>
  h q hq (get_inside hs hq ▸ hn)

theorem Fits.unmarks (h : Fits txnP s) (hu : Unmarks s s') : Fits txnP s' := by
  rcases hu with rfl | ⟨hs, -⟩
  · exact h
  · exact h.inside (hs.mono fun _ e => e ▸ pendingP_outside)

/-! ## Finalizing and rolling back -/

/-- Wherever a finalization stops before it cleans up. -/
theorem Decision.finalizing (h : Committed s₀ statePending s) (hfit : Fits txnP s) (hf : Finalizing s s') :
    Decision s₀ s' := by
  rcases hf with hw | ⟨s1, hw, hu⟩
  · obtain ⟨recs, hlog⟩ := h.logged
    refine .pending ⟨hw.state.trans h.state, ?_, recs, hlog.stateWritten hw.same⟩ (hfit.stateWritten hw.same)
    rw [rootFiles_sameBut hw.same fun _ => StateFile.inside, h.root]
  · have hst : Says s1 stateCommitted := hw.state
    have hroot : rootFiles s1 = applied s₀ := (rootFiles_sameBut hw.same fun _ => StateFile.inside).trans h.root
    have hfit' := (hfit.stateWritten hw.same).unmarks hu
    rcases hu with rfl | ⟨hs, hn⟩
    · exact .committed hst hfit' (.inl hroot)
    · refine .committed ((hs stateP (by decide)).trans hst) hfit' (.inr ?_)
      rw [rootFiles_unmarked hs hn, hroot]

/-- The transaction directory is removed, if its names fit. -/
theorem removeTxn_wp (hv : v.faults = false) (hfit : Fits txnP s) (hd : s.get txnP = some .dir) :
    Sys.Ends v (removeTree txnPathMax heraldTxnDir) s
      (fun ok s' => ok = true ∧ s'.get txnP = none ∧ rootFiles s' = rootFiles s) := by
  refine WP.ends ((removeTree_ok hv txnP_valid (by decide) (by simp) hfit hd).and
    (removeTree_wp txnP_valid (by decide))) fun ok s' h => ?_
  exact ⟨h.1, h.2.2 h.1, rootFiles_prunes h.2.1⟩

theorem Says.txn_dir {state : Bytes} (h : Says s state) : s.get txnP = some .dir :=
  FileSys.get_ancestor h (ancestors_append_left (by decide))

theorem txnFinalize_decision_wp (hv : v.faults = false) (h : Committed s₀ statePending s) (hfit : Fits txnP s) :
    Sys.Ends v txnFinalize s (fun _ s' => Decision s₀ s') := by
  refine WP.thenEnds (finalizeHead_wp h.state) fun ok s1 h1 => ?_
  cases ok with
  | false => exact .finalizing h hfit h1.1
  | true =>
    obtain ⟨s2, hw, hs, hn⟩ := h1.2 rfl
    have hst : Says s1 stateCommitted := (hs stateP (by decide)).trans hw.state
    have hroot : rootFiles s1 = unmarked (applied s₀) := by
      rw [rootFiles_unmarked hs hn, rootFiles_sameBut hw.same fun _ => StateFile.inside, h.root]
    refine WP.ends (removeTxn_wp hv ((hfit.stateWritten hw.same).unmarks (.inr ⟨hs, hn⟩)) hst.txn_dir)
      fun _ s' h' => .resolved h'.2.1 (.inl (h'.2.2.trans hroot))

theorem txnRollback_decision_wp (hv : v.faults = false) (h : Committed s₀ statePending s) (hfit : Fits txnP s) :
    Sys.Ends v txnRollback s (fun _ s' => Decision s₀ s') := by
  obtain ⟨recs, hlog⟩ := h.logged
  refine WP.thenEnds (rollback_wp hlog) fun ok s1 h1 => ?_
  obtain ⟨hlog1, hs1, hroot, hok⟩ := h1
  obtain rfl := hok hv
  exact WP.ends (removeTxn_wp hv (hfit.inside hs1) hlog1.txn_dir)
    fun _ s' h' => .resolved h'.2.1 (.inr (h'.2.2.trans (hroot rfl)))

/-- Recovery in state `committed`: the marker is no file any more, and the
directory is gone, unless the marker could not be removed. -/
theorem recoverCommitted_decision_wp (hv : v.faults = false) (hs : Says s stateCommitted) (hfit : Fits txnP s)
    (hroot : rootFiles s = applied s₀ ∨ rootFiles s = unmarked (applied s₀)) :
    Sys.Ends v txnRecover s (fun rc s' => rc ≠ 1 ∧ Decision s₀ s') := by
  have hstay : Decision s₀ s := .committed hs hfit hroot
  refine txnRecover_state_wp hs (by decide) trivial (fun hf => by rw [hv] at hf; cases hf) ?_
  refine WP.thenEnds (unlinkGone_wp pendingP_valid (by decide)) fun ok s1 h1 => ?_
  cases ok with
  | false => exact h1.2.1 rfl ▸ ⟨by decide, hstay⟩
  | true =>
    obtain ⟨hs1, hn⟩ := h1.1 rfl
    have hst : Says s1 stateCommitted := (hs1 stateP (by decide)).trans hs
    have hroot1 : rootFiles s1 = unmarked (applied s₀) := by
      rw [rootFiles_unmarked hs1 hn]
      rcases hroot with e | e
      · rw [e]
      · rw [e, unmarked_unmarked]
    refine WP.thenEnds (removeTxn_wp hv (hfit.unmarks (.inr ⟨hs1, hn⟩)) hst.txn_dir) fun ok s2 h2 => ?_
    obtain ⟨rfl, hgone, hsame⟩ := h2
    exact ⟨by decide, .resolved hgone (.inl (hsame.trans hroot1))⟩

/-! ## Invocations -/

/-- `main` changes nothing after a recovery with nothing to decide. -/
theorem mainGate_wp {args : List Bytes} {rc : Int} (hrc : rc ≠ 1) :
    Sys.Ends v (mainGate args rc) s (fun _ s' => s' = s) := by
  rw [mainGate, if_neg fun h => hrc h.1]
  split <;> exact rfl

theorem recoverCommand_decision_wp (hv : v.faults = false) (arg : Option Bytes)
    (h : Committed s₀ statePending s) (hfit : Fits txnP s) :
    Sys.Ends v (recoverCommand arg) s (fun _ s' => Decision s₀ s') := by
  rw [recoverCommand]
  split
  · exact txnFinalize_decision_wp hv h hfit
  split
  · exact txnRollback_decision_wp hv h hfit
  · exact .pending h hfit

theorem mainGate_decision_wp {args : List Bytes} (hv : v.faults = false) (h : Committed s₀ statePending s)
    (hfit : Fits txnP s) : Sys.Ends v (mainGate args 1) s (fun _ s' => Decision s₀ s') := by
  rw [mainGate]
  split
  · refine WP.seq (recoverCommand_decision_wp hv _ h hfit) (fun ok s1 h1 => ?_)
    exact h1
  · exact .pending h hfit

/-- An invocation without faults, up to its command. -/
theorem mainRecovery_decision_wp (hv : v.faults = false) (args : List Bytes) (h : Decision s₀ s) :
    Sys.Ends v (mainRecovery args) s (fun _ s' => Decision s₀ s') := by
  cases h with
  | pending h hfit =>
    refine WP.thenEnds (txnRecover_pending_wp h.state) fun rc s1 h1 => ?_
    obtain ⟨rfl, hrc⟩ := h1
    rw [hrc hv]
    exact mainGate_decision_wp hv h hfit
  | committed hs hfit hroot =>
    refine WP.seq (recoverCommitted_decision_wp hv hs hfit hroot) (fun rc s1 h1 => ?_)
    exact WP.post (mainGate_wp h1.1) (fun _ _ e => e ▸ h1.2)
  | resolved hn hroot =>
    have hst : s.get stateP = none := FileSys.get_below_none hn (ancestors_append_left (by decide))
    refine WP.thenEnds (txnRecover_none_wp hst) fun rc s1 h1 => ?_
    obtain ⟨rfl, hrc⟩ := h1
    have hne : rc ≠ 1 := by rcases hrc with rfl | rfl <;> decide
    exact WP.post (mainGate_wp hne) (fun _ _ e => e ▸ .resolved hn hroot)

/-- While a kernel is pending, every command but `recover` is refused. -/
theorem mainRecovery_refuses_wp {args : List Bytes} (hs : Says s statePending)
    (hargs : args.head? ≠ some argRecover) :
    Sys.WP v (mainRecovery args) s (fun r s' => r = some 1 ∧ s' = s) (fun _ s' => s' = s) := by
  have hrc : Sys.WP v txnRecover s (fun rc s' => rc ≠ 0 ∧ s' = s) (fun _ s' => s' = s) := by
    refine txnRecover_state_wp hs (by decide) rfl (fun _ => ⟨by decide, rfl⟩) ?_
    exact ⟨by decide, rfl⟩
  refine WP.seq hrc (fun rc s1 h1 => ?_)
  obtain ⟨hne, rfl⟩ := h1
  rw [mainGate, if_neg fun h => hargs h.2.2, if_pos hne]
  exact ⟨rfl, rfl⟩

/-- One invocation of `herald` after the commit: up to its command, and not
interrupted; or a `recover complete` that stops in the middle of its finalization,
before it cleans up, by a crash or a fault. -/
inductive Invoked (s : FileSys) : FileSys → Prop
  | run (args : List Bytes) {σ : Nat → Choice} (hσ : ∀ n, sound.Allows (σ n)) :
      Invoked s ((mainRecovery args).exec σ s).2
  | cut {s' : FileSys} (hs : Says s statePending)
      (h : Prog.Reaches hostile.Allows (do if (← txnRecover) = 1 then finalizeHead else pure false) s s') :
      Invoked s s'

theorem Invoked.decision (h : Decision s₀ s) (hi : Invoked s s') : Decision s₀ s' := by
  cases hi with
  | run args hσ => exact WP.exec_done (mainRecovery_decision_wp rfl args h) hσ
  | cut hs hr =>
    obtain ⟨hc, hfit⟩ : Committed s₀ statePending s ∧ Fits txnP s := by
      cases h with
      | pending h hfit => exact ⟨h, hfit⟩
      | committed hs' => exact absurd (hs.unique hs') (by decide)
      | resolved hn =>
        rw [hs.txn_dir] at hn
        cases hn
    suffices hwp : Sys.WP hostile (do if (← txnRecover) = 1 then finalizeHead else pure false) s
        (fun _ s' => Decision s₀ s') (fun _ s' => Decision s₀ s') from
      WP.reaches hwp hr
    refine WP.bind (txnRecover_pending_wp hs) (fun rc s1 h1 => ?_) fun o s1 h1 => ?_
    · obtain ⟨rfl, -⟩ := h1
      split
      · exact WP.mono (finalizeHead_wp hs) (fun _ _ h => .finalizing hc hfit h.1) fun _ _ h => .finalizing hc hfit h
      · exact .pending hc hfit
    · exact h1.1 ▸ .pending hc hfit

/-- A clean transaction whose commit has come to the state `pending-kernel`. -/
theorem Decision.of_commit (hb : Begun s₀) (hc : Clean s₀) (hr : txnCommit.Reaches faulty.Allows s₀ s)
    (hs : Says s statePending) (hfit : Fits txnP s) : Decision s₀ s := by
  have hopen : ∀ {state}, Open state → ¬ Says s state := fun ho h => by
    have := hs.unique h
    rcases ho with rfl | rfl <;> revert this <;> decide
  have hclean : ∀ {s1}, Committed s₀ stateCommitted s1 → ¬ Prunes txnP s1 s := fun h hp => by
    have := h.state.symm.trans (hp.get_some hs)
    revert this
    decide
  obtain ⟨cs, hcs, rfl⟩ := hr
  cases hrun : txnCommit.run cs s₀ with
  | done ok s =>
    rw [hrun] at hs hfit hopen hclean
    cases WP.run_done (txnCommit_wp rfl hb hc.reversible) hcs hrun with
    | failed state ho h => exact absurd h.state (hopen ho)
    | pending h => exact .pending h hfit
    | cleaned s1 h hp => exact absurd hp (hclean h)
  | crashed o s =>
    rw [hrun] at hs hfit hopen hclean
    cases WP.run_crashed (txnCommit_wp rfl hb hc.reversible) hcs hrun with
    | undone state ho h => exact absurd h.state (hopen ho)
    | pending h => exact .pending h hfit
    | cleaning s1 h hp => exact absurd hp (hclean h)

/-- A kernel update whose commit has come to the state `pending-kernel`: after any
sequence of invocations, once the transaction directory is gone the root is the
new one without the marker, or the old one; and as long as the state is
`pending-kernel`, every command but `recover` is refused, and changes nothing. -/
theorem pending_resolves {s₁ : FileSys} (hb : Begun s₀) (hc : Clean s₀)
    (hr : txnCommit.Reaches faulty.Allows s₀ s₁) (hs : Says s₁ statePending) (hfit : Fits txnP s₁)
    (hrun : Relation.ReflTransGen Invoked s₁ s) :
    (s.get txnP = none → rootFiles s = unmarked (applied s₀) ∨ rootFiles s = rootFiles s₀) ∧
      (Says s statePending → ∀ args : List Bytes, args.head? ≠ some argRecover →
        Sys.WP hostile (mainRecovery args) s (fun r s' => r = some 1 ∧ s' = s) (fun _ s' => s' = s)) := by
  refine ⟨fun hn => ?_, fun hs args hargs => mainRecovery_refuses_wp hs hargs⟩
  have hdec : Decision s₀ s := by
    clear hn
    induction hrun with
    | refl => exact .of_commit hb hc hr hs hfit
    | tail _ hi ih => exact hi.decision ih
  cases hdec with
  | pending h =>
    rw [h.state.txn_dir] at hn
    cases hn
  | committed hs' =>
    rw [hs'.txn_dir] at hn
    cases hn
  | resolved _ hroot => exact hroot

/-- `upgrade`, which also stages the update-pending marker. -/
def kernelUpgrade : FileSys := .ofList
  [(stateP, .file (stateBytes statePrepared)), (journalP, .file []), (deleteP, .file (ascii "bin/old\n")),
    (stageP ++ [ascii "bin", ascii "new"], .file (ascii "new")), (stageP ++ pendingP, .file (ascii "1")),
    ([ascii "bin", ascii "old"], .file (ascii "old"))]

set_option maxRecDepth 10000 in
/-- `recover complete` after its commit leaves the new files, without the marker. -/
theorem pending_resolves_upgrade : ∃ s,
    Relation.ReflTransGen Invoked (txnCommit.run (List.replicate 90 .ok) kernelUpgrade).state s ∧
      s.get txnP = none ∧ (rootFiles s = unmarked (applied kernelUpgrade) ∨ rootFiles s = rootFiles kernelUpgrade) := by
  have hrun : Relation.ReflTransGen Invoked (txnCommit.run (List.replicate 90 .ok) kernelUpgrade).state
      ((mainRecovery [argRecover, argComplete]).exec (fun _ => .ok)
        (txnCommit.run (List.replicate 90 .ok) kernelUpgrade).state).2 :=
    .single (.run _ fun _ => trivial)
  have hgone : (((mainRecovery [argRecover, argComplete]).exec (fun _ => .ok)
      (txnCommit.run (List.replicate 90 .ok) kernelUpgrade).state).2).get txnP = none := by decide
  refine ⟨_, hrun, hgone, ?_⟩
  exact (pending_resolves (by decide) (by decide) ⟨_, by simp [Env.Allows], rfl⟩
    (by decide) (by decide) hrun).1 hgone

/-- The same, but it stages `a` and `b` with a line break between them, where there
is a file `a`. -/
def brokenKernel : FileSys := .ofList
  [(stateP, .file (stateBytes statePrepared)), (journalP, .file []), (deleteP, .file []),
    (stageP ++ [ascii "a\nb"], .file (ascii "new")), (stageP ++ pendingP, .file (ascii "1")),
    ([ascii "a"], .file (ascii "old"))]

set_option maxRecDepth 10000 in
/-- A rollback reads the line break as the end of a record: it unlinks `a`, and fails
at `b`. Completing the update then leaves the new files without `a`. -/
theorem pending_resolves_neither : Begun brokenKernel ∧ Apart brokenKernel ∧
    Says (txnCommit.exec (fun _ => .ok) brokenKernel).2 statePending ∧
    ∃ s, Relation.ReflTransGen Invoked (txnCommit.exec (fun _ => .ok) brokenKernel).2 s ∧ s.get txnP = none ∧
      rootFiles s ≠ unmarked (applied brokenKernel) ∧ rootFiles s ≠ rootFiles brokenKernel := by
  refine ⟨by decide, by decide, by decide, _,
    .tail (.single (.run [argRecover, argRollback] (σ := fun _ => .ok) fun _ => trivial))
      (.run [argRecover, argComplete] (σ := fun _ => .ok) fun _ => trivial), by decide, ?_, ?_⟩
  · exact fun h => absurd (congrFun h [ascii "a"]) (by decide)
  · exact fun h => absurd (congrFun h [ascii "a"]) (by decide)

end Lorica.Proof.Herald

import Lorica.Proof.Herald.Begin

/-!
# herald: what is committed stays

Once the state file says `committed`, the transaction directory is removed in the
order in which it is listed. The state file may go first and the journal stay. A
`txn_begin` that then starts finds nothing to recover and writes the state
`prepared` before it empties the journal; if it crashes in between, the next
recovery takes the old journal for that of the new transaction and undoes the
committed one.

`committed_durable`: apart from that, no sequence of clean-ups, recoveries and
beginnings, interrupted anywhere, changes the root files.
-/

namespace Lorica.Proof.Herald

open Lorica.Impl.Herald Posix List

variable {v : Env} {s s' : FileSys} {m : Path → Option Bytes}

/-- The root files are `m`, but for the marker, and there is no journal that a
recovery would replay. -/
structure Settled (m : Path → Option Bytes) (s : FileSys) : Prop where
  root : rootFiles s = m ∨ rootFiles s = unmarked m
  /-- The transaction directory, and what is above it, is no file. -/
  clear : Clear s stateP
  state : Says s stateCommitted ∨ s.get stateP = none ∨ Says s statePrepared ∧ NoRecords s

theorem NoRecords.prune (h : NoRecords s) (hp : Prunes txnP s s') : NoRecords s' := by
  rcases hp journalP with e | ⟨-, hn⟩
  · rw [NoRecords, e]; exact h
  · exact .inl hn

theorem Settled.prune (h : Settled m s) (hp : Prunes txnP s s') : Settled m s' where
  root := by rw [rootFiles_prunes hp]; exact h.root
  clear q hq b hb := h.clear q hq b (hp.get_some hb)
  state := by
    rcases hp stateP with e | ⟨-, hn⟩
    · simp only [Says, e]
      exact h.state.imp_right (Or.imp_right (And.imp_right (·.prune hp)))
    · exact .inr (.inl hn)

theorem Settled.unmark (h : Settled m s) (hs : Unmarks s s') : Settled m s' := by
  rcases hs with rfl | ⟨hs, hn⟩
  · exact h
  constructor
  case root =>
    right
    rw [rootFiles_unmarked hs hn]
    rcases h.root with e | e
    · rw [e]
    · rw [e, unmarked_unmarked]
  case clear =>
    intro q hq b hb
    exact h.clear q hq b (hs q (by rintro rfl; rw [hn] at hb; cases hb) ▸ hb)
  case state =>
    have hst : s'.get stateP = s.get stateP := hs _ (by decide)
    have hj : s'.get journalP = s.get journalP := hs _ (by decide)
    simp only [Says, NoRecords, hst, hj]
    exact h.state

/-! ## Recovering and beginning -/

theorem Settled.cleanup_wp (h : Settled m s) :
    Sys.WP v (removeTree txnPathMax heraldTxnDir) s (fun _ s' => Settled m s') (fun _ s' => Settled m s') := by
  exact WP.mono (removeTree_wp txnP_valid (by decide)) (fun _ _ hp => h.prune hp.1) fun _ _ hp => h.prune hp.1

theorem Settled.unmark_wp (h : Settled m s) :
    Sys.WP v (unlinkGone heraldUpdatePending) s (fun _ s' => Settled m s') (fun _ s' => Settled m s') := by
  refine WP.mono (unlinkGone_wp pendingP_valid (by decide)) (fun ok s' ⟨hok, herr, _⟩ => ?_) fun _ _ hs => hs.1 ▸ h
  cases ok with
  | true => exact h.unmark (.inr (hok rfl))
  | false => exact herr rfl ▸ h

theorem Settled.recover_wp (h : Settled m s) :
    Sys.WP v txnRecover s (fun _ s' => Settled m s') (fun _ s' => Settled m s') := by
  rcases h.state with hs | hn | ⟨hs, hj⟩
  · have hfin : ∀ {s'}, Finished s s' → Settled m s' := fun ⟨s1, hu, hp⟩ => (h.unmark hu).prune hp
    exact WP.mono (txnRecover_committed_wp hs) (fun _ _ h => hfin h.1) fun _ _ h => hfin h.1
  · exact WP.mono (txnRecover_none_wp hn) (fun _ _ hs => hs.1 ▸ h) fun _ _ hs => hs.1 ▸ h
  · have hc : Clear s journalP := h.clear
    refine txnRecover_open_wp (.inl rfl) hs h (fun _ => h) ?_
    refine WP.bind (rollback_noRecords_wp hj hc) (fun ok s1 ⟨hs1, _⟩ => ?_) fun _ s' ⟨hs', _⟩ => hs' ▸ h
    subst hs1
    cases ok with
    | false => exact h
    | true =>
      exact h.cleanup_wp

theorem Settled.begin_wp (h : Settled m s) (hj : s.get stateP = none → NoRecords s) :
    Sys.WP v txnBegin s (fun _ s' => Settled m s') (fun _ s' => Settled m s') := by
  refine WP.bind (WP.and h.recover_wp txnRecover_zero_wp) (fun rc s1 ⟨h1, hz⟩ => ?_) fun _ _ h => h.1
  by_cases hrc : rc = 0
  · subst hrc
    -- the state file is gone, and there are no records
    obtain ⟨hn, hj1⟩ : s1.get stateP = none ∧ NoRecords s1 := by
      rcases hz rfl with ⟨rfl, hn⟩ | hn
      · exact ⟨hn, hj hn⟩
      · exact ⟨FileSys.get_below_none hn (by decide), .inl (FileSys.get_below_none hn (by decide))⟩
    have hset : ∀ {s2}, Beginning s1 s2 → Settled m s2 := fun hb => by
      refine ⟨by rw [hb.root]; exact h1.root, hb.clear h1.clear, .inr ?_⟩
      have hj2 : NoRecords _ := hb.journal.elim (fun e => by rw [NoRecords, e]; exact hj1) .inr
      exact hb.state.imp (fun e => e.trans hn) fun e => ⟨e, hj2⟩
    exact WP.mono beginIn_wp (fun _ _ hb => hset hb.1) fun _ _ hb => hset hb
  · change Sys.WP v (if rc = 0 then beginIn else pure false) s1 _ _
    rw [if_neg hrc]
    exact h1

/-! ## Later runs -/

/-- The files in which a transaction is put together. -/
def StageFile (q : Path) : Prop := stageP <+: q ∨ q = deleteP

/-- What may come after a commit: the clean-up of `txn_commit` and `txn_finalize`, a
recovery, or a `txn_begin` that does not find records without a state file, each
of which may crash or return, and whatever is then staged. -/
inductive Later (s s' : FileSys) : Prop
  | cleanup (h : (removeTree txnPathMax heraldTxnDir).Reaches hostile.Allows s s')
  | unmark (h : (unlinkGone heraldUpdatePending).Reaches hostile.Allows s s')
  | recover (h : txnRecover.Reaches hostile.Allows s s')
  | begin (hj : s.get stateP = none → NoRecords s) (h : txnBegin.Reaches hostile.Allows s s')
  | stage (h : SameBut StageFile s s')

theorem Settled.stage (h : Settled m s) (hs : SameBut StageFile s s') : Settled m s' where
  root := by
    rw [rootFiles_sameBut hs]
    · exact h.root
    · rintro q (hq | rfl)
      · exact (stage_spared hq).1
      · exact deleteP_inside
  clear q hq b hb := by
    refine h.clear q hq b (hs q ?_ ▸ hb)
    rintro (hst | rfl)
    · exact absurd (hst.trans (mem_ancestors.mp hq).1) (by decide)
    · revert hq; decide
  state := by
    have hst : s'.get stateP = s.get stateP := hs _ (by rintro (h | h) <;> revert h <;> decide)
    have hj : s'.get journalP = s.get journalP := hs _ (by rintro (h | h) <;> revert h <;> decide)
    simp only [Says, NoRecords, hst, hj]
    exact h.state

theorem Settled.later (h : Settled m s) (hs : Relation.ReflTransGen Later s s') : Settled m s' := by
  induction hs with
  | refl => exact h
  | tail _ hstep ih =>
    cases hstep with
    | cleanup hr => exact WP.reaches ih.cleanup_wp hr
    | unmark hr => exact WP.reaches ih.unmark_wp hr
    | recover hr => exact WP.reaches ih.recover_wp hr
    | begin hj hr => exact WP.reaches (ih.begin_wp hj) hr
    | stage hs => exact ih.stage hs

/-- Once the state file says `committed`, no clean-up, recovery or beginning changes
a root file, but for the marker. -/
theorem committed_durable {p : Path} (hs : Says s stateCommitted) (hrun : Relation.ReflTransGen Later s s')
    (hm : p = pendingP → rootFiles s p = none) : rootFiles s' p = rootFiles s p := by
  have hset : Settled (rootFiles s) s := ⟨.inl rfl, Clear.of_get (by simp [show s.get stateP = _ from hs]), .inl hs⟩
  rcases (hset.later hrun).root with e | e
  · rw [e]
  by_cases hp : p = pendingP
  · rw [e, hm hp, hp, unmarked, Function.update_self]
  · rw [e, unmarked, Function.update_of_ne hp]

/-- `upgrade`, interrupted in its clean-up after `n` operations. -/
def upgraded (n : Nat) : FileSys := (txnCommit.run (replicate n .ok) upgrade).state

set_option maxRecDepth 10000 in
/-- It is interrupted when it begins to clean up; a recovery then does the rest,
and another transaction is begun. -/
theorem committed_durable_upgrade :
    ∃ s' : FileSys, s'.get txnP = some .dir ∧ Relation.ReflTransGen Later (upgraded 53) s' ∧
      rootFiles s' [ascii "bin", ascii "new"] = rootFiles (upgraded 53) [ascii "bin", ascii "new"] := by
  have hrec : Later (upgraded 53) (txnRecover.run (replicate 40 .ok) (upgraded 53)).state :=
    .recover ⟨_, by decide, rfl⟩
  have hbeg : Later _ (txnBegin.run (replicate 40 .ok)
      (txnRecover.run (replicate 40 .ok) (upgraded 53)).state).state :=
    .begin (by decide) ⟨_, by decide, rfl⟩
  have hrun := Relation.ReflTransGen.tail (.single hrec) hbeg
  exact ⟨_, by decide, hrun, committed_durable (by decide) hrun fun e => absurd e (by decide)⟩

set_option maxRecDepth 10000 in
/-- It is interrupted when the state file is gone and the journal is not; the
next `txn_begin` is interrupted when it has written its state; the recovery after
it undoes `upgrade`. -/
theorem committed_undone : Begun upgrade ∧ Clean upgrade ∧ Says (upgraded 53) stateCommitted ∧
      (∃ o, txnCommit.run (replicate 56 .ok) upgrade = .crashed o (upgraded 56)) ∧
      ∃ s', txnBegin.Crashes sound.Allows (upgraded 56) s' ∧
        applied upgrade [ascii "bin", ascii "new"] = some (ascii "new") ∧
        rootFiles (txnRecover.exec (fun _ => .ok) s').2 [ascii "bin", ascii "new"] = none ∧
        applied upgrade [ascii "bin", ascii "old"] = none ∧
        rootFiles (txnRecover.exec (fun _ => .ok) s').2 [ascii "bin", ascii "old"] = some (ascii "old") := by
  refine ⟨by decide, by decide, by decide, Outcome.eq_crashed (by decide), ?_⟩
  obtain ⟨o, hr⟩ := Outcome.eq_crashed (r := txnBegin.run (replicate 22 .ok) (upgraded 56)) (by decide)
  exact ⟨_, ⟨_, o, by decide, hr⟩, by decide⟩

end Lorica.Proof.Herald

import Lorica.Proof.Herald.Apply

/-!
# herald: recovery

What `txn_recover` does, by what the state file says: nothing without a state
file or while a kernel is pending (`txnRecover_none_wp`, `txnRecover_pending_wp`);
in state `committed` it removes the update-pending marker and cleans up
(`txnRecover_committed_wp`); in every other state it rolls back and cleans up
(`txnRecover_undo_wp`).
-/

namespace Lorica.Proof.Herald

open Lorica.Impl.Herald Posix

variable {v : Env} {s s' : FileSys} {p q : Path} {orig : Path → Option Bytes} {recs : List Rec}

/-- The state file says `state`. -/
def Says (s : FileSys) (state : Bytes) : Prop := s.get stateP = some (.file (stateBytes state))

instance (s : FileSys) (state : Bytes) : Decidable (Says s state) := inferInstanceAs (Decidable (_ = _))

theorem Says.unique {a b : Bytes} (h : Says s a) (h' : Says s b) : a = b := by
  rw [Says, h, Option.some.injEq, Node.file.injEq] at h'
  exact List.append_cancel_right h'

/-- The states in which recovery rolls back. -/
def Open (state : Bytes) : Prop := state = statePrepared ∨ state = stateApplying

/-- `txn_recover` once the state has been read. -/
def recoverIn (state : Bytes) : Sys Int :=
  if statePending.isPrefixOf state then pure 1
  else if stateCommitted.isPrefixOf state then do
    if ← unlinkGone heraldUpdatePending then do
      if ← removeTree txnPathMax heraldTxnDir then pure 0 else pure (-1)
    else pure (-1)
  else do
    if ← rollback then do
      if ← removeTree txnPathMax heraldTxnDir then pure 0 else pure (-1)
    else pure (-1)

/-- And before. -/
def recoverNode (node : Node) : Sys Int :=
  match stateLine node with
  | none => pure (-1)
  | some state => recoverIn state

theorem resolve_txnState : resolve txnState = ⟨stateP, false⟩ := by
  rw [txnState_eq, resolve_absStr stateP_valid (by decide)]

/-- Reading the state file: a fault ends the recovery, a state goes on as
`recoverIn`. -/
theorem txnRecover_state_wp {state : Bytes} {Q : Int → FileSys → Prop} {C : Op → FileSys → Prop}
    (hs : Says s state) (hl : stateLine (.file (stateBytes state)) = some (stateBytes state))
    (hC : C (.openRead txnState) s) (hf : v.faults = true → Q (-1) s)
    (h : Sys.WP v (recoverIn (stateBytes state)) s Q C) : Sys.WP v txnRecover s Q C := by
  refine Sys.WP.openRead hC fun r hr => ?_
  rw [resolve_txnState, FileSys.stat_file hs] at hr
  rcases hr with rfl | ⟨hff, rfl⟩
  · change Sys.WP v (recoverNode (.file (stateBytes state))) s Q C
    rw [recoverNode, hl]
    exact h
  · exact hf hff

/-- Without a state file nothing is done. -/
theorem txnRecover_none_wp (hs : s.get stateP = none) :
    Sys.WP v txnRecover s (fun rc s' => s' = s ∧ (rc = 0 ∨ rc = -1)) (fun o s' => s' = s ∧ Quiet o) := by
  refine Sys.WP.openRead ⟨rfl, .openRead _⟩ fun r hr => ?_
  cases r with
  | error e =>
    refine ⟨rfl, ?_⟩
    by_cases he : e = .ENOENT
    · exact .inl (if_pos he)
    · exact .inr (if_neg he)
  | ok n =>
    rw [resolve_txnState] at hr
    have := (FileSys.stat_ok (hr.resolve_right fun h => by cases h.2).symm).1
    rw [hs] at this
    cases this

/-- While a kernel is pending nothing is done. -/
theorem txnRecover_pending_wp (hs : Says s statePending) :
    Sys.WP v txnRecover s (fun rc s' => s' = s ∧ (v.faults = false → rc = 1)) (fun o s' => s' = s ∧ Quiet o) := by
  refine txnRecover_state_wp hs (by decide) ⟨rfl, .openRead _⟩ (fun hf => ⟨rfl, fun h => ?_⟩) ?_
  · rw [h] at hf; cases hf
  · exact ⟨rfl, fun _ => rfl⟩

/-- The clean-up: only the transaction directory is removed, and all of it if the
result is 0. -/
theorem cleanup_wp : Sys.WP v (do if ← removeTree txnPathMax heraldTxnDir then pure 0 else pure (-1) : Sys Int) s
      (fun rc s' => Prunes txnP s s' ∧ (rc = 0 → s'.get txnP = none)) (fun o s' => Prunes txnP s s' ∧ Quiet o) := by
  refine WP.seq (removeTree_wp txnP_valid (by decide)) (fun ok s1 ⟨hp, hok⟩ => ?_)
  cases ok with
  | true => exact ⟨hp, fun _ => hok rfl⟩
  | false => exact ⟨hp, fun e => absurd e (by decide)⟩

theorem rootFiles_prunes (h : Prunes txnP s s') : rootFiles s' = rootFiles s :=
  rootFiles_sameBut h.sameBut fun _ h => h

/-- The root files without the update-pending marker. -/
def unmarked (m : Path → Option Bytes) : Path → Option Bytes := Function.update m pendingP none

theorem unmarked_unmarked (m : Path → Option Bytes) : unmarked (unmarked m) = unmarked m :=
  Function.update_idem ..

/-- `s'` is `s` with the marker removed or not. -/
def Unmarks (s s' : FileSys) : Prop := s' = s ∨ SameBut (· = pendingP) s s' ∧ s'.get pendingP = none

/-- And then some of the transaction directory may be removed. -/
def Finished (s s' : FileSys) : Prop := ∃ s₁, Unmarks s s₁ ∧ Prunes txnP s₁ s'

theorem pendingP_outside : Outside pendingP := by decide

theorem rootFiles_unmarked (h : SameBut (· = pendingP) s s') (hn : s'.get pendingP = none) :
    rootFiles s' = unmarked (rootFiles s) := by
  funext q
  by_cases hq : q = pendingP
  · subst hq
    exact FileSys.data_eq_none.mpr fun b hb => by rw [hn] at hb; cases hb
  · rw [unmarked, Function.update_of_ne hq]
    unfold rootFiles
    rw [h.data_eq hq]

/-- In state `committed` only the marker goes, and the transaction directory. -/
theorem txnRecover_committed_wp (hs : Says s stateCommitted) : Sys.WP v txnRecover s
      (fun rc s' => Finished s s' ∧ (v.faults = false → rootFiles s' = unmarked (rootFiles s)) ∧
        (rc = 0 → s'.get txnP = none)) (fun o s' => Finished s s' ∧ Quiet o) := by
  have hstay : Finished s s := ⟨s, .inl rfl, .refl _ s⟩
  refine txnRecover_state_wp hs (by decide) ⟨hstay, .openRead _⟩ (fun hf => ?_) ?_
  · exact ⟨hstay, fun h => by (rw [h] at hf; cases hf), fun e => absurd e (by decide)⟩
  refine WP.bind (unlinkGone_wp pendingP_valid (by decide)) (fun ok s1 ⟨hok, herr, hnf⟩ => ?_)
    fun o s' ⟨h, ho⟩ => ⟨h ▸ hstay, ho⟩
  cases ok with
  | false =>
    obtain rfl := herr rfl
    refine ⟨hstay, fun h => ?_, fun e => absurd e (by decide)⟩
    -- the marker could not be removed, so it is not a file
    refine (Function.update_eq_self_iff.mpr ?_).symm
    refine (FileSys.data_eq_none.mpr fun b hb => ?_).symm
    exact Bool.false_ne_true (hnf h (Clear.of_get (by simp [hb])) (by simp [hb]))
  | true =>
    obtain ⟨hs1, hn⟩ := hok rfl
    refine WP.mono cleanup_wp (fun rc s' ⟨hp, hrc⟩ => ⟨⟨s1, .inr ⟨hs1, hn⟩, hp⟩, fun _ => ?_, hrc⟩)
      fun o s' ⟨hp, ho⟩ => ⟨⟨s1, .inr ⟨hs1, hn⟩, hp⟩, ho⟩
    rw [rootFiles_prunes hp, rootFiles_unmarked hs1 hn]

/-! ## Finalizing -/

/-- How far a finalization has come before it cleans up: the state file is written,
and then the marker goes. -/
def Finalizing (s s' : FileSys) : Prop :=
  StateWritten stateCommitted s false s' ∨ ∃ s₁, StateWritten stateCommitted s true s₁ ∧ Unmarks s₁ s'

theorem finalizeHead_wp (hs : Says s statePending) : Sys.WP v finalizeHead s
      (fun ok s' => Finalizing s s' ∧ (ok = true → ∃ s1, StateWritten stateCommitted s true s1 ∧
        SameBut (· = pendingP) s1 s' ∧ s'.get pendingP = none)) (fun _ s' => Finalizing s s') := by
  have hstay : Finalizing s s := .inl (.of_tmp (.refl _ s))
  have hd : s.get txnP = some .dir := FileSys.get_ancestor hs (ancestors_append_left (by decide))
  refine Sys.WP.openRead hstay fun r hr => ?_
  rw [resolve_txnState, FileSys.stat_file hs] at hr
  rcases hr with rfl | ⟨hff, rfl⟩
  · have hl : stateLine (.file (stateBytes statePending)) = some (stateBytes statePending) := by decide
    simp only [hl]
    refine WP.bind (writeState_wp hd) (fun ok s1 hw => ?_) fun o s' ⟨_, ok, hw⟩ => ?_
    · cases ok with
      | false => exact ⟨.inl hw, by simp⟩
      | true =>
        have hstay1 : Finalizing s s1 := .inr ⟨s1, hw, .inl rfl⟩
        refine WP.bind (unlinkGone_wp pendingP_valid (by decide)) (fun ok s2 ⟨hok, herr, _⟩ => ?_)
          fun _ s' ⟨hs', _⟩ => hs' ▸ hstay1
        cases ok with
        | false => exact herr rfl ▸ ⟨hstay1, by simp⟩
        | true => exact ⟨.inr ⟨s1, hw, .inr (hok rfl)⟩,
            fun _ _ => ⟨.inr ⟨s1, hw, .inr (hok rfl)⟩, fun _ => ⟨s1, hw, hok rfl⟩⟩⟩
    · cases ok with
      | false => exact .inl hw
      | true => exact .inr ⟨s', hw, .inl rfl⟩
  · exact ⟨hstay, by simp⟩

/-! ## Rolling back and cleaning up -/

/-- How far an undo has come: the journal still undoes everything, or the root is
back and the transaction directory is being removed. -/
def Undoing (orig : Path → Option Bytes) (recs : List Rec) (s s' : FileSys) : Prop :=
  Logged orig recs [] s' ∧ SameBut Outside s s' ∨
    ∃ s₁, Logged orig recs [] s₁ ∧ SameBut Outside s s₁ ∧ rootFiles s₁ = orig ∧ Prunes txnP s₁ s'

theorem txnRollback_wp (h : Logged orig recs [] s) : Sys.WP v txnRollback s
      (fun ok s' => Undoing orig recs s s' ∧ (v.faults = false → rootFiles s' = orig) ∧
        (ok = true → rootFiles s' = orig ∧ s'.get txnP = none))
      (fun o s' => Undoing orig recs s s' ∧ SparesJournal o) := by
  refine WP.bind (rollback_wp h) (fun ok s1 ⟨h1, hs1, hok, hnf⟩ => ?_) fun o s' ⟨h', hs', ho⟩ => ⟨.inl ⟨h', hs'⟩, ho⟩
  cases ok with
  | false => exact ⟨.inl ⟨h1, hs1⟩, fun h => absurd (hnf h) Bool.false_ne_true, by simp⟩
  | true =>
    have hroot : ∀ {s'}, Prunes txnP s1 s' → rootFiles s' = orig := fun hp => (rootFiles_prunes hp).trans (hok rfl)
    exact WP.mono (removeTree_wp txnP_valid (by decide))
      (fun ok s' ⟨hp, hok'⟩ => ⟨.inr ⟨s1, h1, hs1, hok rfl, hp⟩, fun _ => hroot hp, fun e => ⟨hroot hp, hok' e⟩⟩)
      fun o s' ⟨hp, ho⟩ => ⟨.inr ⟨s1, h1, hs1, hok rfl, hp⟩, ho.sparesJournal⟩

/-- In the states before the commit, recovery is a `txn_rollback`. -/
theorem txnRecover_open_wp {state : Bytes} {Q : Int → FileSys → Prop} {C : Op → FileSys → Prop} (ho : Open state)
    (hs : Says s state) (hC : C (.openRead txnState) s) (hf : v.faults = true → Q (-1) s)
    (h : Sys.WP v txnRollback s (fun ok => Q (if ok = true then 0 else -1)) C) : Sys.WP v txnRecover s Q C := by
  have hl : stateLine (.file (stateBytes state)) = some (stateBytes state) := by
    rcases ho with rfl | rfl <;> decide
  have h1 : ¬ statePending.isPrefixOf (stateBytes state) = true := by
    rcases ho with rfl | rfl <;> decide
  have h2 : ¬ stateCommitted.isPrefixOf (stateBytes state) = true := by
    rcases ho with rfl | rfl <;> decide
  have heq : recoverIn (stateBytes state) = txnRollback >>= fun ok => pure (if ok = true then 0 else -1) := by
    rw [recoverIn, if_neg h1, if_neg h2, txnRollback, Prog.bind_assoc]
    refine congrArg _ (funext fun ok => ?_)
    cases ok with
    | false => rfl
    | true =>
      simp only [ite_true]
      refine congrArg _ (funext fun ok => ?_)
      cases ok <;> rfl
  refine txnRecover_state_wp hs hl hC hf ?_
  rw [heq]
  exact WP.seq h (fun _ _ h => WP.pure h)

/-- It rolls back and cleans up. -/
theorem txnRecover_undo_wp {state : Bytes} (ho : Open state) (hs : Says s state) (h : Logged orig recs [] s) :
    Sys.WP v txnRecover s (fun rc s' => Undoing orig recs s s' ∧ (v.faults = false → rootFiles s' = orig) ∧
        (rc = 0 → rootFiles s' = orig ∧ s'.get txnP = none))
      (fun o s' => Undoing orig recs s s' ∧ SparesJournal o) := by
  have hstay : Undoing orig recs s s := .inl ⟨h, .refl _ s⟩
  refine txnRecover_open_wp ho hs ⟨hstay, (Quiet.openRead _).sparesJournal⟩ (fun hf => ?_) ?_
  · exact ⟨hstay, fun h => by (rw [h] at hf; cases hf), fun e => absurd e (by decide)⟩
  refine WP.post (txnRollback_wp h) (fun ok s1 ⟨hu, hnf, hok⟩ => ⟨hu, hnf, fun e => hok ?_⟩)
  cases ok with
  | true => rfl
  | false => exact absurd e (by decide)

end Lorica.Proof.Herald

import Lorica.Proof.Herald.Atomicity

/-!
# herald: beginning a transaction

`txn_begin` first recovers; `txnRecover_zero_wp` says what a recovery that
succeeds has done, whatever it found: nothing, for want of a state file, or all of
the transaction directory is gone. What `txn_begin` does then (`beginIn`) only
adds to the transaction directory (`Beginning`): it never looks at what was left
in there (`beginIn_wp`).
-/

namespace Lorica.Proof.Herald

open Lorica.Impl.Herald Posix

variable {v : Env} {s s' : FileSys} {p q : Path}

/-- The package database. -/
def dbP : Path := [ascii "etc", ascii "aegis", ascii "herald", ascii "db"]

theorem dbP_valid : ValidPath dbP := by decide

/-! ## What beginning changes -/

/-- From `s` to `s'` nothing has changed but what `txn_begin` changes: the state
may have become `prepared` and the journal empty, and the database is the only
file that may have been staged. -/
structure Beginning (s s' : FileSys) : Prop where
  root : rootFiles s' = rootFiles s
  clear : Clear s stateP → Clear s' stateP
  state : s'.get stateP = s.get stateP ∨ Says s' statePrepared
  journal : s'.get journalP = s.get journalP ∨ s'.get journalP = some (.file [])
  stage : ∀ q b, s'.get (stageP ++ q) = some (.file b) → s.get (stageP ++ q) = some (.file b) ∨ q = dbP

theorem Beginning.refl (s : FileSys) : Beginning s s :=
  ⟨rfl, id, .inl rfl, .inl rfl, fun _ _ h => .inl h⟩

theorem Beginning.trans {s'' : FileSys} (h : Beginning s s') (h' : Beginning s' s'') : Beginning s s'' where
  root := h'.root.trans h.root
  clear hc := h'.clear (h.clear hc)
  state := by
    rcases h'.state with e | e
    · rw [Says, e]; exact h.state
    · exact .inr e
  journal := by
    rcases h'.journal with e | e
    · rw [e]; exact h.journal
    · exact .inr e
  stage q b hb := by
    rcases h'.stage q b hb with hb | rfl
    · exact h.stage q b hb
    · exact .inr rfl

/-- A poke within the transaction directory that is not at, above or below its
control files. -/
theorem Beginning.of_pokes (h : Pokes p s s') (hp : txnP <+: p) (hs : stateP ≠ p ∧ stateP ∉ ancestors p)
    (hj : journalP ≠ p ∧ journalP ∉ ancestors p) (hc : p ∉ ancestors stateP)
    (hst : ∀ q, stageP ++ q = p → q = dbP) : Beginning s s' where
  root := rootFiles_congr fun q hq => h.data_eq fun e => hq (e ▸ hp)
  clear hcl q hq b hb := hcl q hq b (h.file_before (fun e => hc (e ▸ hq)) hb)
  state := .inl (h.get_eq hs.1 hs.2)
  journal := .inl (h.get_eq hj.1 hj.2)
  stage q b hb := by
    by_cases e : stageP ++ q = p
    · exact .inr (hst q e)
    · exact .inl (h.file_before e hb)

theorem Beginning.of_makes (h : Makes p s s') (hs : stateP ∉ ancestors p) (hj : journalP ∉ ancestors p) :
    Beginning s s' where
  root := rootFiles_makes h
  clear hcl := h.clear hcl
  state := .inl ((h stateP).resolve_right fun h => hs h.1)
  journal := .inl ((h journalP).resolve_right fun h => hj h.1)
  stage q b hb := by
    rcases h (stageP ++ q) with e | ⟨-, -, hd⟩
    · exact .inl (e ▸ hb)
    · rw [hb] at hd; cases hd

theorem Beginning.of_state {ok : Bool} (h : StateWritten statePrepared s ok s') : Beginning s s' where
  root := rootFiles_sameBut h.same fun _ => StateFile.inside
  clear hcl q hq b hb := by
    have : ¬ StateFile q := by
      rintro (rfl | rfl)
      · exact not_mem_ancestors_self _ hq
      · revert hq; decide
    exact hcl q hq b (h.same q this ▸ hb)
  state := by
    rw [Says, h.state]
    cases ok with
    | false => exact .inl rfl
    | true => exact .inr rfl
  journal := .inl (h.same journalP (by decide))
  stage q b hb := .inl (h.same _ (stage_not_stateFile (List.prefix_append _ _)) ▸ hb)

theorem Beginning.of_journal (h : SameBut (· = journalP) s s') (hj : s' = s ∨ s'.get journalP = some (.file [])) :
    Beginning s s' where
  root := rootFiles_sameBut h fun q e => e ▸ journalP_inside
  clear hcl q hq b hb := hcl q hq b (h q (by rintro rfl; revert hq; decide) ▸ hb)
  state := .inl (h stateP (by decide))
  journal := hj.imp_left fun e => by rw [e]
  stage q b hb := .inl (h _ (stage_spared (List.prefix_append _ _)).2.2 ▸ hb)

/-! ## Staging a file of the root -/

theorem txnStagePath_str (hne : p ≠ []) : txnStagePath txnPathMax (str p) =
    if safeRel (str p) = true ∧
      (absStr (stageP ++ p)).length < txnPathMax then some (absStr (stageP ++ p)) else none := by
  rw [txnStagePath, heraldTxnStage_eq, ← absStr_append (by decide) hne]

/-- `txn_stage_existing` writes at the staged path only. -/
theorem txnStageExisting_wp (hv : ValidPath p) (hne : p ≠ []) :
    Sys.WP v (txnStageExisting (str p)) s (fun _ s' => Pokes (stageP ++ p) s s')
      (fun _ s' => Pokes (stageP ++ p) s s') := by
  have hstay : Pokes (stageP ++ p) s s := .refl _ s
  rw [txnStageExisting, txnStagePath_str hne]
  split
  · exact hstay
  · by_cases hl : safeRel (str p) = true ∧ (absStr (stageP ++ p)).length < txnPathMax
    · rw [if_pos hl]
      have hsv : ValidPath (stageP ++ p) := stageP_valid.append hv
      refine Sys.WP.lstat hstay fun r _ => ?_
      split
      · exact WP.mono (parentDirs_wp hsv (by simp [hne]) hl.2) (fun _ _ h => h.1.pokes) fun _ _ h => h.1.pokes
      · exact hstay
      · exact hstay
      · exact WP.mono (copyFile_wp hv hne hsv (by simp [hne]) hl.2) (fun _ _ h => h.1) fun _ _ h => h.1
    · rw [if_neg hl]
      exact hstay

/-! ## Beginning -/

/-- `txn_begin` after the recovery. -/
def beginIn : Sys Bool := do
  if ← mkdirP heraldTxnStage then
    if ← mkdirP txnBackup then
      if ← writeState statePrepared then
        if ← createEmpty txnJournal then
          if ← createEmpty txnDelete then txnStageExisting heraldDbRel
          else pure false
        else pure false
      else pure false
    else pure false
  else pure false

/-- The last steps, once the state is `prepared`. -/
theorem beginFiles_wp (hs : Says s statePrepared) :
    Sys.WP v (do
        if ← createEmpty txnJournal then
          if ← createEmpty txnDelete then txnStageExisting heraldDbRel
          else pure false
        else pure false) s
      (fun ok s' => Beginning s s' ∧ (ok = true → Begun s')) (fun _ s' => Beginning s s') := by
  refine WP.bind (createEmpty_wp journalP_valid (by decide)) (fun ok s1 ⟨h1, hj1, hok1⟩ => ?_)
    fun _ s' ⟨h', hj'⟩ => .of_journal h' hj'
  have hb1 := Beginning.of_journal h1 hj1
  cases ok with
  | false => exact ⟨hb1, by simp⟩
  | true =>
    have hbegun : Begun s1 := ⟨(h1 stateP (by decide)).trans hs, hok1 rfl⟩
    have hdel : ∀ {s2}, SameBut (· = deleteP) s1 s2 → s2 = s1 ∨ s2.get deleteP = some (.file []) →
        Beginning s1 s2 := fun h2 hd => by
      rcases hd with rfl | hd
      · exact .refl _
      · exact .of_pokes (h2.pokes (by simp [hd])) deleteP_inside ⟨by decide, by decide⟩
          ⟨by decide, by decide⟩ (by decide) fun q e =>
            absurd e (child_ne (n := ascii "stage") (m := ascii "delete") (by decide) q [])
    refine WP.bind (createEmpty_wp deleteP_valid (by decide)) (fun ok s2 ⟨h2, hd2, _⟩ => ?_)
      fun _ s' ⟨h', hd'⟩ => hb1.trans (hdel h' hd')
    have hb2 := hb1.trans (hdel h2 hd2)
    have hbegun2 : Begun s2 :=
      ⟨(h2 stateP (by decide)).trans hbegun.state, (h2 journalP (by decide)).trans hbegun.journal⟩
    cases ok with
    | false => exact ⟨hb2, by simp⟩
    | true =>
      have hstage : ∀ {s3}, Pokes (stageP ++ dbP) s2 s3 → Beginning s2 s3 := fun h3 =>
        .of_pokes h3 (stage_inside dbP) ⟨by decide, by decide⟩
          ⟨by decide, by decide⟩ (by decide) fun q e => List.append_cancel_left e
      refine WP.mono (txnStageExisting_wp dbP_valid (by decide)) (fun ok s3 h3 => ⟨hb2.trans (hstage h3), fun _ => ?_⟩)
        fun _ s' h' => hb2.trans (hstage h')
      exact ⟨(h3.get_eq (by decide) (by decide)).trans hbegun2.state,
        (h3.get_eq (by decide) (by decide)).trans hbegun2.journal⟩

theorem beginIn_wp :
    Sys.WP v beginIn s (fun ok s' => Beginning s s' ∧ (ok = true → Begun s')) (fun _ s' => Beginning s s') := by
  have hmkdir : ∀ {s s' : FileSys} {p : Path}, p = stageP ∨ p = backupP →
      Makes (p ++ [ascii "x"]) s s' → Beginning s s' := by
    rintro s s' p (rfl | rfl) h <;> exact .of_makes h (by decide) (by decide)
  refine WP.bind (mkdirP_wp (n := ascii "x") stageP_valid (by decide) (by decide) (by decide))
    (fun ok s1 ⟨h1, _, _⟩ => ?_) fun _ s' ⟨h', _⟩ => hmkdir (.inl rfl) h'
  have hb1 := hmkdir (.inl rfl) h1
  cases ok with
  | false => exact ⟨hb1, by simp⟩
  | true =>
    refine WP.bind (mkdirP_wp (n := ascii "x") backupP_valid (by decide) (by decide) (by decide))
      (fun ok s2 ⟨h2, _, _⟩ => ?_) fun _ s' ⟨h', _⟩ => hb1.trans (hmkdir (.inr rfl) h')
    have hb2 := hb1.trans (hmkdir (.inr rfl) h2)
    cases ok with
    | false => exact ⟨hb2, by simp⟩
    | true =>
      have hstate : ∀ {s3 s4 ok}, Makes stateTmpP s2 s3 → StateWritten statePrepared s3 ok s4 → Beginning s2 s4 :=
        fun hm hw => (Beginning.of_makes hm (by decide) (by decide)).trans (.of_state hw)
      refine WP.bind writeState_makes_wp (fun ok s4 ⟨s3, hm, hw⟩ => ?_)
        fun _ s' ⟨_, s3, hm, _, hw⟩ => hb2.trans (hstate hm hw)
      have hb4 := hb2.trans (hstate hm hw)
      cases ok with
      | false => exact ⟨hb4, by simp⟩
      | true =>
        have hs : Says s4 statePrepared := hw.state
        exact WP.mono (beginFiles_wp hs) (fun ok s' ⟨h, hok⟩ => ⟨hb4.trans h, hok⟩) fun _ s' h => hb4.trans h

/-- A recovery that succeeds has done nothing, since there was no state file, or
the transaction directory is gone. -/
theorem txnRecover_zero_wp :
    Sys.Ends v txnRecover s (fun rc s' => rc = 0 → s' = s ∧ s.get stateP = none ∨ s'.get txnP = none) := by
  refine Sys.WP.openRead trivial fun r hr => ?_
  rw [resolve_txnState] at hr
  cases r with
  | error e =>
    refine fun h => .inl ⟨rfl, ?_⟩
    have he : e = .ENOENT := by
      by_contra hne
      rw [if_neg hne] at h
      exact absurd h (by decide)
    rcases hr with hr | ⟨-, hr⟩
    · cases hg : s.get stateP with
      | none => rfl
      | some n =>
        cases n with
        | dir => rw [FileSys.stat_dir hg] at hr; cases hr
        | file b => rw [FileSys.stat_file hg] at hr; cases hr
    · rw [he] at hr; cases hr
  | ok node =>
    change Sys.WP v (recoverNode node) s _ _
    have hclean : ∀ s, Sys.Ends v (do if ← removeTree txnPathMax heraldTxnDir then pure 0 else pure (-1) : Sys Int) s
        (fun rc s' => rc = 0 → s'.get txnP = none) := fun s =>
      WP.ends cleanup_wp fun _ _ h => h.2
    have hgone : ∀ state, Sys.Ends v (recoverIn state) s (fun rc s' => rc = 0 → s'.get txnP = none) := fun state => by
      unfold recoverIn
      split
      · exact fun h => absurd h (by decide)
      · split
        all_goals
          refine WP.thenEnds WP.trivial fun ok s1 _ => ?_
          cases ok with
          | false => exact fun h => absurd h (by decide)
          | true => exact hclean s1
    unfold recoverNode
    split
    · exact fun h => absurd h (by decide)
    · exact WP.ends (hgone _) fun _ _ h e => .inr (h e)

end Lorica.Proof.Herald

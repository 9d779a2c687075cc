import Lorica.Proof.Herald.Atomicity
import Lorica.Proof.Herald.Ops

/-!
# herald: transactions that stage what they delete

`rollback` replays the journal from its start. A transaction that deletes a file
and stages another at the same path records the path twice, as backed up and then
as new, and its rollback ends by unlinking what it has restored. One that stages
a file below the deleted one makes it a directory, which a rollback never
removes.

`commit_fail_restores_iff`: a failed commit of a transaction is always undone
exactly if it has no such paths, or cannot get through its deletes.
-/

namespace Lorica.Proof.Herald

open Lorica.Impl.Herald Posix List

variable {v : Env} {s s' : FileSys} {p q : Path} {orig : Path → Option Bytes} {recs : List Rec}

/-! ## A rollback keeps directories -/

/-- Whatever the journal says, a recovery in an open state keeps the directories
of the root. -/
theorem recover_keeps_dir {state : Bytes} {σ : Nat → Choice} (ho : Open state) (hs : Says s state)
    (hσ : ∀ n, sound.Allows (σ n)) (hq : Outside q) (hd : s.get q = some .dir) :
    (txnRecover.exec σ s).2.get q = some .dir := by
  have hkeep : Sys.WP sound rollback s (fun _ s' => KeepsDirs s s') (fun o s' => KeepsDirs s s' ∧ SparesDirs o) :=
    (uses_rollback.mono fun _ => UndoOp.sparesDirs).wp KeepsDirs.refl (fun _ _ _ => KeepsDirs.trans)
      fun o c s ho _ => step_keepsDirs ho c s
  have hwp : Sys.Ends sound txnRecover s (fun _ s' => s'.get q = some .dir) := by
    refine txnRecover_open_wp ho hs trivial (fun _ => hd) ?_
    refine WP.thenEnds hkeep fun ok s1 h1 => ?_
    cases ok with
    | false => exact h1 q hd
    | true =>
      change Sys.WP sound (removeTree txnPathMax heraldTxnDir) s1 _ _
      refine WP.ends (removeTree_wp txnP_valid (by decide)) fun _ s2 ⟨hp, _⟩ => ?_
      exact (hp.get_eq hq).trans (h1 q hd)
  exact WP.exec_done hwp hσ

/-! ## Failing at a given staged file -/

/-- The directories may be listed in an order in which the staged file `p` of the
directory `d` is met first: if moving it can fail, all can fail there. -/
theorem applyStageDir_can {fuel : Nat} {d : Path} {b : Bytes} (hd : ValidPath d) (hp : p ≠ [])
    (hb : s.get (stageP ++ (d ++ p)) = some (.file b)) (hl : (absStr (stageP ++ (d ++ p))).length < txnPathMax)
    (hf : p.length ≤ fuel) (h : Sys.Can v (moveTarget (absStr (stageP ++ (d ++ p))) (str (d ++ p))) s false s') :
    Sys.Can v (applyStageDir fuel (absStr (stageP ++ d)) (str d)) s false s' := by
  induction p generalizing d fuel with
  | nil => exact absurd rfl hp
  | cons n p ih =>
    obtain ⟨fuel, rfl⟩ : ∃ k, fuel = k + 1 := Nat.exists_eq_succ_of_ne_zero (by simp at hf; omega)
    have hassoc : d ++ n :: p = (d ++ [n]) ++ p := by simp
    rw [hassoc] at hb hl h
    have hvalid : ValidPath (stageP ++ ((d ++ [n]) ++ p)) := FileSys.get_valid (hb ▸ Option.some_ne_none _)
    have hcv : ValidPath (d ++ [n]) := hvalid.right.left
    have hpre : stageP ++ (d ++ [n]) <+: stageP ++ ((d ++ [n]) ++ p) := ⟨p, by simp⟩
    -- what is at the first component
    have hnode : s.get (stageP ++ (d ++ [n])) = if p = [] then some (.file b) else some .dir := by
      split
      · rename_i e; subst e; simpa using hb
      · rename_i e
        exact FileSys.get_ancestor hb (mem_ancestors.mpr ⟨hpre, by simpa using e⟩)
    have hdir : s.get (stageP ++ d) = some .dir :=
      FileSys.get_ancestor hb (mem_ancestors.mpr ⟨⟨n :: p, by simp⟩, by simp⟩)
    have hr : resolve (absStr (stageP ++ d)) = ⟨stageP ++ d, false⟩ :=
      resolve_absStr (stageP_valid.append hd) (by simp [stageP])
    have hmem : n ∈ s.children (stageP ++ d) := by
      refine FileSys.mem_children.mpr ?_
      rw [append_assoc, hnode]
      split <;> simp
    have hperm : (n :: (s.children (stageP ++ d)).erase n).Perm (s.children (resolve (absStr (stageP ++ d))).path) := by
      rw [hr]; exact (perm_cons_erase hmem).symm
    refine Sys.Can.readdir (by rw [hr]; exact hdir) hperm ?_
    have hsrc : absStr (stageP ++ d) ++ slash :: n = absStr (stageP ++ (d ++ [n])) := by
      rw [absStr_child (by simp [stageP]), append_assoc]
    have hlen : ¬ ((absStr (stageP ++ (d ++ [n]))).length ≥ txnPathMax ∨ (str (d ++ [n])).length ≥ txnPathMax) := by
      have h1 := absStr_length_le hpre (by simp [stageP])
      have h2 : (absStr (stageP ++ (d ++ [n]))).length = (absStr stageP ++ slash :: str (d ++ [n])).length := by
        rw [absStr_append (by decide) (by simp)]
      simp only [length_append, length_cons] at h2
      omega
    simp only [applyStageEntries, hsrc, relJoin_str hd, if_neg hlen]
    refine Sys.Can.lstat ?_
    rw [resolve_absStr (stageP_valid.append hcv) (by simp [stageP])]
    by_cases hpe : p = []
    · subst hpe
      rw [FileSys.stat_file hnode]
      rw [append_nil] at h
      exact Can.bind h Can.pure
    · rw [if_neg hpe] at hnode
      rw [FileSys.stat_dir hnode]
      exact Can.bind (ih hcv hpe hb hl (by simp at hf; omega) h) Can.pure

/-- A new target can get its record: what is left to do then is to flush it and
to make the directories. -/
theorem prepareNew_can {b : Bytes} (hq : Recordable q) (hn : s.stat ⟨q, false⟩ = .error .ENOENT)
    (hj : s.get journalP = some (.file b)) :
    ∃ s1, SameBut (· = journalP) s s1 ∧ s1.get journalP = some (.file (b ++ (Rec.mk false q hq).line)) ∧
      ∀ {ok s'}, Sys.Can v (do if ← Sys.fsync txnJournal then parentDirs (absStr q) else pure false) s1 ok s' →
        Sys.Can v (prepareTarget (str q)) s ok s' := by
  obtain ⟨hw, hg⟩ := append_writes (path_absStr journalP_valid hj) hj (Rec.mk false q hq).line
  refine ⟨_, hw.1, hg, fun {ok s'} hcan => ?_⟩
  have hlen : ¬ ((slash :: str q).length ≥ txnPathMax ∨ (txnBackup ++ slash :: str q).length ≥ txnPathMax) := by
    rw [backup_name hq.ne_nil, not_or]
    exact ⟨not_le.mpr hq.short_abs, not_le.mpr hq.short⟩
  have hline : ¬ (journalLine opNew (str q)).length ≥ txnPathMax + 4 := by
    have hl := (Rec.mk false q hq).length_line
    have he : (journalLine opNew (str q)).length = (opNew :: tab :: str q).length + 1 := by simp [journalLine]
    have : (Rec.mk false q hq).op = opNew := rfl
    rw [this] at hl
    simp only at hl
    omega
  simp only [prepareTarget, safeRel_str hq.valid hq.ne_nil, Bool.true_eq_false, false_or, if_neg hlen]
  refine Sys.Can.lstat ?_
  rw [show slash :: str q = absStr q from rfl, resolve_absStr hq.valid hq.ne_nil, hn]
  simp only [journal, if_neg hline, writeFull, Prog.bind_assoc]
  refine Sys.Can.write ?_
  simp only [decide_true]
  exact hcan

/-- Moving a new staged file can fail once its record is in the journal. -/
theorem moveRecorded_can {b : Bytes} {src : Bytes} (hv : v.faults = true) (hq : Recordable q)
    (hn : s.stat ⟨q, false⟩ = .error .ENOENT) (hj : s.get journalP = some (.file b)) :
    ∃ s1, Sys.Can v (moveTarget src (str q)) s false s1 ∧ SameBut (· = journalP) s s1 ∧
      s1.get journalP = some (.file (b ++ (Rec.mk false q hq).line)) := by
  obtain ⟨s1, hs1, hg1, hprep⟩ := prepareNew_can (v := v) hq hn hj
  have hfail : Sys.Can v (prepareTarget (str q)) s false s1 := hprep (Sys.Can.fsync_fail hv Can.pure)
  refine ⟨s1, Can.bind hfail ?_, hs1, hg1⟩
  exact Can.pure

/-- Or once its directories are made. -/
theorem movePrepared_can {b : Bytes} {src : Bytes} (hv : v.faults = true) (hq : Recordable q)
    (hn : s.stat ⟨q, false⟩ = .error .ENOENT) (hj : s.get journalP = some (.file b)) :
    ∃ s1, Sys.Can v (moveTarget src (str q)) s false s1 ∧ s1.get stateP = s.get stateP ∧
      ∀ a ∈ ancestors q, s1.get a = some .dir := by
  obtain ⟨s1, hs1, hg1, hprep⟩ := prepareNew_can (v := v) hq hn hj
  have hc : Clear s1 q := fun a ha c hc => by
    have hout := outside_above hq.outside (mem_ancestors.mp ha).1
    rw [hs1 a fun e => hout (e ▸ journalP_inside)] at hc
    exact Clear.of_enoent hn a ha c hc
  obtain ⟨ok, s2, hcan, hm, hd, hok⟩ := WP.exists_can (A := v.Allows) (c := .ok)
    (parentDirs_wp (v := sound) (s := s1) hq.valid hq.ne_nil hq.short_abs) trivial trivial
  obtain rfl := hok rfl hc
  refine ⟨s2, Can.bind (hprep (Sys.Can.fsync hcan)) ?_, ?_, hd rfl hc⟩
  · simp only [if_neg (not_le.mpr hq.short_abs : ¬ (slash :: str q).length ≥ txnPathMax)]
    exact Sys.Can.call_fail hv Can.pure
  · rw [get_inside (pokes_outside hm.pokes hq.outside) stateP_inside, hs1 stateP (by decide)]

/-! ## Failing after the deletes -/

/-- If the deletes can be carried out, the commit can fail wherever the stage can. -/
theorem txnCommit_can {s0 : FileSys} (hb : Begun s0) (hin : InBounds s0) (h : Deletable faulty s0) :
    ∃ s2, Deleting s0 (rootFiles s0) (deletedPaths s0) (some (.file (stateBytes stateApplying))) s2 ∧
      ∀ s3, Sys.Can faulty (applyStageDir txnPathMax heraldTxnStage []) s2 false s3 →
        Sys.Can faulty txnCommit s0 false s3 := by
  obtain ⟨hthere, s1, s2, hwrite, hdel⟩ := h
  have hw := WP.can (writeState_wp hb.txn_dir) hwrite
  have hdeleted := WP.can (applyDeletes_wp rfl (hb.deleting hw.same hw.state) (delete_outside hin.deleted)) hdel
  refine ⟨s2, hdeleted.2 rfl, fun s3 hstage => ?_⟩
  obtain ⟨pending, _, haccess, rfl⟩ := WP.exists_can (A := faulty.Allows) (c := .ok)
    (access_wp (v := faulty) (s := s0) (heraldTxnStage ++ heraldUpdatePending)) trivial trivial
  have hopen : (Call.openAppend txnJournal).sem s1 = .ok s1 := by
    have hj : s1.get journalP = some (.file []) := (hw.same journalP (by decide)).trans hb.journal
    simp only [Call.sem, show resolve txnJournal = ⟨journalP, false⟩ by decide, FileSys.stat_file hj]
  obtain ⟨node, hnode⟩ : ∃ node, s1.stat (resolve txnDelete) = .ok node := by
    obtain ⟨node, hn⟩ := Option.ne_none_iff_exists'.mp hthere
    rw [← hw.same deleteP (by decide)] at hn
    rw [txnDelete_eq, resolve_absStr deleteP_valid (by decide)]
    cases node with
    | file b => exact ⟨_, FileSys.stat_file hn⟩
    | dir => exact ⟨_, FileSys.stat_dir hn false⟩
  have hbody : Sys.Can faulty (commitBody pending) s1 false s3 := by
    refine Sys.Can.openRead ?_
    rw [hnode]
    change Sys.Can faulty (forLines _ (fgetsLines txnPathMax [] (contents node)) >>= _) s1 false s3
    rw [(lines_delete hw.same hnode).2]
    exact Can.bind hdel (Can.bind hstage Can.pure)
  have hroll : Sys.Can faulty rollback s3 false s3 := Sys.Can.openRead_fail rfl Can.pure
  exact Can.bind haccess (Can.bind hwrite (Sys.Can.call hopen (Can.bind hbody
    (Sys.Can.close (Can.bind hroll Can.pure)))))

/-! ## What is not undone -/

/-- A path that is recorded as new after it was recorded as backed up is gone
after a recovery. -/
theorem recover_loses_new {r : Rec} {state : Bytes} {σ : Nat → Choice} (ho : Open state) (hs : Says s state)
    (h : Logged orig recs r.line s) (hr : r.saved = false) (horig : orig r.path ≠ none)
    (hσ : ∀ n, sound.Allows (σ n)) : rootFiles (txnRecover.exec σ s).2 r.path = none := by
  have hline : fgetsLines (txnPathMax + 4) [] r.line = [r.line] := by
    have := lines_encode [r] []
    simpa [encode, fgetsLines] using this
  have hroll : Sys.Ends sound rollback s (fun _ s' => rootFiles s' r.path = none) := by
    refine rollback_tail_wp h (fun _ _ _ _ _ => trivial) (fun _ _ _ hf => by cases hf) fun s1 _ _ hroot _ => ?_
    -- the records have restored the path; the new record then unlinks it
    have hfile : s1.get r.path ≠ none ∧ s1.get r.path ≠ some .dir := by
      rw [← hroot, rootFiles_outside r.good.outside] at horig
      obtain ⟨b, hb⟩ := Option.ne_none_iff_exists'.mp horig
      simp [FileSys.data_eq_some.mp hb]
    rw [hline]
    refine lastLine_wp (WP.ends (rollbackLine_wp r) fun ok s2 h2 => ?_)
    obtain ⟨-, hok, hnf⟩ := h2
    rw [rootFiles_outside r.good.outside,
      hok (hnf rfl (fun e => by rw [hr] at e; cases e) (Clear.of_get hfile.1) hfile.2), Rec.old, hr]
    rfl
  have hwp : Sys.Ends sound txnRecover s (fun _ s' => rootFiles s' r.path = none) := by
    refine txnRecover_open_wp ho hs trivial (fun hf => by cases hf) ?_
    refine WP.thenEnds hroll fun ok s1 h1 => ?_
    cases ok with
    | false => exact h1
    | true =>
      change Sys.WP sound (removeTree txnPathMax heraldTxnDir) s1 _ _
      refine WP.ends (removeTree_wp txnP_valid (by decide)) fun _ s2 h2 => ?_
      exact (congrFun (rootFiles_prunes h2.1) _).trans h1
  exact WP.exec_done hwp hσ

/-- Below a recorded file that has been deleted nothing is there, and nothing is
in the way. -/
theorem Applying.below_deleted {r : Rec} (h : Applying orig recs s) (hr : r ∈ recs) (hn : s.get r.path = none)
    (hpq : r.path <+: q) : s.get q = none ∧ Clear s q := by
  have hbelow : ∀ {a}, r.path <+: a → s.get a = none := fun {a} ha => by
    by_cases e : r.path = a
    · rw [← e, hn]
    · by_contra hne
      obtain ⟨n, hg⟩ := Option.ne_none_iff_exists'.mp hne
      rw [FileSys.get_ancestor hg (mem_ancestors.mpr ⟨ha, e⟩)] at hn
      cases hn
  refine ⟨hbelow hpq, fun a ha b hb => ?_⟩
  rcases prefix_or_prefix_of_prefix (mem_ancestors.mp ha).1 hpq with hap | hpa
  · by_cases e : a = r.path
    · rw [e, hn] at hb; cases hb
    · rw [h.dirs r hr a (mem_ancestors.mpr ⟨hap, e⟩)] at hb; cases hb
  · rw [hbelow hpa] at hb; cases hb

/-- A transaction that deletes `bin/x` and stages another `bin/x`, as it does when
one package has stopped owning the file and another begins to. -/
def handover : FileSys := .ofList
  [(stateP, .file (stateBytes statePrepared)), (journalP, .file []), (deleteP, .file (ascii "bin/x\n")),
    (stageP ++ [ascii "bin", ascii "x"], .file (ascii "new")), ([ascii "bin", ascii "x"], .file (ascii "old"))]

/-- A transaction that stages a name with a line break, whose record reads as one of
`a`. -/
def lineBroken : FileSys := .ofList
  [(stateP, .file (stateBytes statePrepared)), (journalP, .file []), (deleteP, .file []),
    (stageP ++ [ascii "a\nb"], .file (ascii "new")), ([ascii "a"], .file (ascii "old"))]

end Lorica.Proof.Herald

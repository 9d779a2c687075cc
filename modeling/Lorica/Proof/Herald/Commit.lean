import Lorica.Proof.Herald.Recover

/-!
# herald: committing

A transaction is begun when its state is `prepared` and its journal empty
(`Begun`). `applied s` is what the root files are to become: what is staged in
place, and what is to be deleted removed. `Clean s` says that the transaction
stays out of its own directory (`InBounds`) and does not stage a file at or below
one that it deletes (`Apart`).

`txnCommit_wp` says what a commit of a clean transaction leaves, whether it
succeeds, fails or crashes. Until the state file says `committed` or
`pending-kernel` the journal undoes everything; from then on the root files are
the applied ones.
-/

namespace Lorica.Proof.Herald

open Lorica.Impl.Herald Posix List

variable {v : Env} {s s' : FileSys} {p q : Path} {orig : Path → Option Bytes} {recs : List Rec}

/-! ## Transactions -/

/-- A transaction that has been begun and not committed. -/
structure Begun (s : FileSys) : Prop where
  state : Says s statePrepared
  journal : s.get journalP = some (.file [])

instance (s : FileSys) : Decidable (Begun s) :=
  decidable_of_iff (Says s statePrepared ∧ s.get journalP = some (.file []))
    ⟨fun ⟨h₁, h₂⟩ => ⟨h₁, h₂⟩, fun ⟨h₁, h₂⟩ => ⟨h₁, h₂⟩⟩

/-- The lines of the delete file. -/
def deleteLines (s : FileSys) : List Bytes :=
  match s.get deleteP with
  | some node => fgetsLines txnPathMax [] (contents node)
  | none => []

/-- The paths that a transaction deletes. -/
def deletedPaths (s : FileSys) : List Path := delPaths (deleteLines s)

/-- The root files after the transaction. -/
def applied (s : FileSys) (p : Path) : Option Bytes :=
  (s.data (stageP ++ p)).or (without (rootFiles s) (deletedPaths s) p)

/-- The paths of the staged files. -/
def stagedPaths (s : FileSys) : List Path :=
  s.paths.filterMap fun q => if stageP <+: q ∧ s.data q ≠ none then some (q.drop stageP.length) else none

theorem mem_stagedPaths : p ∈ stagedPaths s ↔ ∃ b, s.get (stageP ++ p) = some (.file b) := by
  rw [stagedPaths, mem_filterMap]
  constructor
  · rintro ⟨q, -, hq⟩
    split at hq
    · rename_i h
      obtain ⟨⟨r, rfl⟩, hd⟩ := h
      obtain ⟨b, hb⟩ := Option.ne_none_iff_exists'.mp hd
      exact ⟨b, by cases hq; exact FileSys.data_eq_some.mp hb⟩
    · cases hq
  · rintro ⟨b, hb⟩
    refine ⟨stageP ++ p, FileSys.mem_paths.mpr (by simp [hb]), ?_⟩
    rw [if_pos ⟨prefix_append _ _, by simp [FileSys.data_eq_some.mpr hb]⟩, drop_left]

/-- A transaction that stays out of its own directory and stages no name with a
line break. A staged path that is too long stops the commit before anything is
done with it. -/
structure InBounds (s : FileSys) : Prop where
  staged : ∀ p ∈ stagedPaths s, Short p → Outside p ∧ ∀ n ∈ p, newline ∉ n
  deleted : ∀ p ∈ deletedPaths s, Outside p

/-- No file is staged at or below a file that the transaction deletes. -/
def Apart (s : FileSys) : Prop :=
  ∀ p ∈ deletedPaths s, rootFiles s p ≠ none → ∀ q ∈ stagedPaths s, Short q → ¬ p <+: q

/-- A transaction that is in bounds, and whose deletes and staged files are apart. -/
structure Clean (s : FileSys) : Prop extends InBounds s where
  apart : Apart s

instance (s : FileSys) : Decidable (InBounds s) :=
  decidable_of_iff ((∀ p ∈ stagedPaths s, Short p → Outside p ∧ ∀ n ∈ p, newline ∉ n) ∧ ∀ p ∈ deletedPaths s, Outside p)
    ⟨fun ⟨h₁, h₂⟩ => ⟨h₁, h₂⟩, fun ⟨h₁, h₂⟩ => ⟨h₁, h₂⟩⟩

instance (s : FileSys) : Decidable (Apart s) := inferInstanceAs (Decidable (∀ _ ∈ _, _))

instance (s : FileSys) : Decidable (Clean s) :=
  decidable_of_iff (InBounds s ∧ Apart s) ⟨fun ⟨h₁, h₂⟩ => ⟨h₁, h₂⟩, fun ⟨h₁, h₂⟩ => ⟨h₁, h₂⟩⟩

/-- The deletes can be carried out, so that a commit can come to what is staged. -/
def Deletable (v : Env) (s : FileSys) : Prop :=
  s.get deleteP ≠ none ∧ ∃ s₁ s₂, Sys.Can v (writeState stateApplying) s true s₁ ∧
    Sys.Can v (forLines (fun line => if chomp line = [] then pure true else applyDelete (chomp line)) (deleteLines s))
      s₁ true s₂

/-- A transaction whose commits can be undone: its deletes stay out of its own
directory, and it is clean if a commit can come to what is staged. -/
structure Reversible (v : Env) (s : FileSys) : Prop where
  deleted : ∀ p ∈ deletedPaths s, Outside p
  clean : Deletable v s → Clean s

theorem Clean.reversible (h : Clean s) : Reversible v s := ⟨h.deleted, fun _ => h⟩

theorem InBounds.stageOk (h : InBounds s) : StageOk s := fun p b hb => h.staged p (mem_stagedPaths.mpr ⟨b, hb⟩)

theorem Begun.logged (h : Begun s) : Logged (rootFiles s) [] [] s :=
  ⟨h.journal, .nil _, forall_mem_nil _, forall_mem_nil _, forall_mem_nil _⟩

theorem Begun.txn_dir (h : Begun s) : s.get txnP = some .dir := h.logged.txn_dir

/-! ## What a commit leaves -/

/-- The commit has happened: the state file says so and the root files are the
applied ones. -/
structure Committed (s₀ : FileSys) (state : Bytes) (s : FileSys) : Prop where
  state : Says s state
  root : rootFiles s = applied s₀
  /-- The journal could still undo it. -/
  logged : ∃ recs, Logged (rootFiles s₀) recs [] s

/-- What a commit of the transaction in `s₀` can leave, if it crashes before the
operation `o`. -/
inductive CommitCrash (s₀ : FileSys) (o : Op) (s : FileSys) : Prop
  | undone (state : Bytes) (ho : Open state)
      (h : Midway (rootFiles s₀) (some (.file (stateBytes state))) o s)
  | pending (h : Committed s₀ statePending s) (ho : SparesJournal o)
  | cleaning (s₁ : FileSys) (h : Committed s₀ stateCommitted s₁) (hp : Prunes txnP s₁ s) (ho : SparesJournal o)

/-- What it leaves if it returns. -/
inductive CommitDone (s₀ : FileSys) : Bool → FileSys → Prop
  | failed (state : Bytes) {s : FileSys} (ho : Open state)
      (h : Undoable (rootFiles s₀) (some (.file (stateBytes state))) s) : CommitDone s₀ false s
  | pending {s : FileSys} (h : Committed s₀ statePending s) : CommitDone s₀ true s
  | cleaned (s₁ : FileSys) {s : FileSys} (h : Committed s₀ stateCommitted s₁) (hp : Prunes txnP s₁ s) :
      CommitDone s₀ true s

/-- Writing the state file keeps the root recoverable. -/
theorem Logged.stateWritten {tail : Bytes} (h : Logged orig recs tail s) (hs : SameBut StateFile s s') :
    Logged orig recs tail s' := by
  refine h.of_inside (hs.mono fun _ => StateFile.inside) ?_ fun r _ _ => hs.data_eq (not_stateFile_backup r.path)
  rw [hs journalP (by decide)]
  exact h.journal

variable {s₀ : FileSys}

theorem Committed.crash {pending : Bool} {o : Op}
    (h : Committed s₀ (if pending = true then statePending else stateCommitted) s) (ho : SparesJournal o) :
    CommitCrash s₀ o s := by
  cases pending with
  | true => exact .pending h ho
  | false => exact .cleaning s h (.refl _ s) ho

/-! ## The steps of a commit -/

theorem stage_not_stateFile (h : stageP <+: q) : ¬ StateFile q := by
  rintro (rfl | rfl) <;> exact absurd h (by decide)

/-- Nothing is deleted yet. -/
theorem Begun.deleting {state : Bytes} (h : Begun s₀) (hs : SameBut StateFile s₀ s)
    (hst : Says s state) : Deleting s₀ (rootFiles s₀) [] (some (.file (stateBytes state))) s where
  applying := ⟨[], ⟨h.logged.stateWritten hs, forall_mem_nil _⟩, forall_mem_nil _⟩
  root := by
    rw [rootFiles_sameBut hs fun _ => StateFile.inside]
    funext p
    simp [without]
  stage q hq := hs q (stage_not_stateFile hq)
  state := hst

/-- Everything is deleted, and the staged files come next. -/
theorem Deleting.staging {st : Option Node} (hc : Clean s₀)
    (h : Deleting s₀ (rootFiles s₀) (deletedPaths s₀) st s) : Staging (rootFiles s₀) (applied s₀) st s where
  applying := by
    obtain ⟨recs, happ, hgone⟩ := h.applying
    refine ⟨recs, happ, fun p b hb hf r hr => ?_⟩
    obtain ⟨-, hdel, horig⟩ := hgone r hr
    rw [h.stage _ (prefix_append _ _)] at hb
    have hnot := hc.apart _ hdel horig p (mem_stagedPaths.mpr ⟨b, hb⟩) hf
    exact ⟨fun e => hnot (e ▸ prefix_refl _), fun ha => absurd (mem_ancestors.mp ha).1 hnot⟩
  good p b hb := hc.stageOk p b (by rw [← h.stage _ (prefix_append _ _)]; exact hb)
  overlay := by
    funext p
    rw [overlay, applied, FileSys.data_congr (h.stage _ (prefix_append _ _)), h.root]
  state := h.state

/-- Nothing is staged any more. -/
theorem Staging.root_eq {goal : Path → Option Bytes} {st : Option Node} (h : Staging orig goal st s)
    (hn : ∀ q b, s.get (stageP ++ q) ≠ some (.file b)) : rootFiles s = goal := by
  rw [← h.overlay]
  funext p
  rw [Herald.overlay, FileSys.data_eq_none.mpr (hn p), Option.none_or]

/-- The delete file as `txn_commit` reads it. -/
theorem lines_delete {node : Node} (hs : SameBut StateFile s₀ s) (hr : s.stat (resolve txnDelete) = .ok node) :
    s₀.get deleteP ≠ none ∧ fgetsLines txnPathMax [] (contents node) = deleteLines s₀ := by
  rw [txnDelete_eq, resolve_absStr deleteP_valid (by decide)] at hr
  have hnode := (FileSys.stat_ok hr).1
  rw [hs deleteP (by decide)] at hnode
  exact ⟨hnode ▸ Option.some_ne_none _, by rw [deleteLines, hnode]⟩

theorem delete_outside (h : ∀ p ∈ deletedPaths s, Outside p) :
    ∀ line ∈ deleteLines s, chomp line ≠ [] → Outside (delPath (chomp line)) := fun _ hl hne =>
  h _ (mem_map_of_mem (mem_filter.mpr ⟨mem_map_of_mem hl, decide_eq_true hne⟩))

theorem commitBody_wp {pending : Bool} (hv : v.shorts = false) (hb : Begun s₀) (hc : Reversible v s₀)
    (hs : SameBut StateFile s₀ s) (hst : Says s stateApplying)
    (hw : Sys.Can v (writeState stateApplying) s₀ true s) : Sys.WP v (commitBody pending) s
      (fun ok s' => (ok = false → Undoable (rootFiles s₀) (some (.file (stateBytes stateApplying))) s') ∧
        (ok = true → Committed s₀ (if pending = true then statePending else stateCommitted) s'))
      (CommitCrash s₀) := by
  have hmid : ∀ o s', Midway (rootFiles s₀) (some (.file (stateBytes stateApplying))) o s' →
      CommitCrash s₀ o s' := fun o s' h => .undone stateApplying (.inr rfl) h
  have hdel := hb.deleting hs hst
  refine Sys.WP.openRead (hmid _ _ (hdel.undoable.midway (Quiet.openRead _).sparesJournal)) fun r hr => ?_
  cases r with
  | error e => exact ⟨fun _ => hdel.undoable, by simp⟩
  | ok node =>
    obtain ⟨hthere, hlines⟩ := lines_delete hs (hr.resolve_right fun h => by cases h.2).symm
    change Sys.WP v (forLines _ (fgetsLines txnPathMax [] (contents node)) >>= _) s _ _
    rw [hlines]
    refine WP.bind (applyDeletes_wp hv hdel (delete_outside hc.deleted)).withCan (fun ok s1 ⟨h1, hcan⟩ => ?_) hmid
    cases ok with
    | false => exact ⟨fun _ => h1.1, by simp⟩
    | true =>
      have hstg := (h1.2 rfl).staging (hc.clean ⟨hthere, s, s1, hw, hcan⟩)
      have happly : Sys.WP v (applyStageDir txnPathMax (absStr (stageP ++ [])) (str [])) s1 _ _ :=
        applyStageDir_wp hv .nil hstg
      refine WP.bind happly (fun ok s2 h2 => ?_) hmid
      obtain ⟨hu2, hok2⟩ := h2
      cases ok with
      | false => exact ⟨fun _ => hu2, by simp⟩
      | true =>
        obtain ⟨hstg2, -, hnone⟩ := hok2 rfl
        have hroot : rootFiles s2 = applied s₀ := hstg2.root_eq hnone
        obtain ⟨recs, hlog⟩ := hu2.logged
        refine Sys.WP.sync (hmid _ _ (hu2.midway Quiet.sync.sparesJournal)) ?_
        -- the state file is what decides
        have hwritten : ∀ {ok s3}, StateWritten (if pending = true then statePending else stateCommitted) s2 ok s3 →
            (ok = false → Undoable (rootFiles s₀) (some (.file (stateBytes stateApplying))) s3) ∧
            (ok = true → Committed s₀ (if pending = true then statePending else stateCommitted) s3) := by
          intro ok s3 hw
          have hlog3 := hlog.stateWritten hw.same
          refine ⟨fun e => ⟨?_, recs, hlog3⟩, fun e => ⟨?_, ?_, recs, hlog3⟩⟩
          · rw [hw.state, e]; exact hu2.state
          · rw [Says, hw.state, e]; rfl
          · rw [rootFiles_sameBut hw.same fun _ => StateFile.inside, hroot]
        refine WP.mono (writeState_wp hlog.txn_dir) (fun ok s3 hw => hwritten hw) fun o s3 hcut => ?_
        obtain ⟨ho, ok, hw⟩ := hcut
        have hsp : SparesJournal o := ho.sparesJournal stateTmpP_valid (by decide)
        cases ok with
        | false => exact hmid _ _ (((hwritten hw).1 rfl).midway hsp)
        | true => exact ((hwritten hw).2 rfl).crash hsp

theorem access_wp (path : Bytes) :
    Sys.WP v (access path) s (fun _ s' => s' = s) (fun o s' => s' = s ∧ Quiet o) := by
  refine Sys.WP.lstat ⟨rfl, .lstat _⟩ fun r _ => ?_
  cases r <;> exact rfl

/-- The end of a commit that has failed: a rollback, which keeps the root
recoverable wherever it stops. -/
theorem commitFailed_wp (h : Undoable (rootFiles s₀) (some (.file (stateBytes stateApplying))) s) :
    Sys.WP v (do let _ ← rollback; pure false) s (CommitDone s₀) (CommitCrash s₀) := by
  obtain ⟨recs, hlog⟩ := h.logged
  have hund : ∀ {s'}, Logged (rootFiles s₀) recs [] s' → SameBut Outside s s' →
      Undoable (rootFiles s₀) (some (.file (stateBytes stateApplying))) s' := fun hl hs =>
    ⟨(get_inside hs stateP_inside).trans h.state, recs, hl⟩
  refine WP.bind (rollback_wp hlog) (fun ok s1 ⟨hl, hs, _⟩ => ?_) fun o s' ⟨hl, hs, ho⟩ =>
    .undone _ (.inr rfl) ((hund hl hs).midway ho)
  exact .failed _ (.inr rfl) (hund hl hs)

/-- A commit of a transaction that can be undone, with any faults, whether it
returns or crashes. -/
theorem txnCommit_wp (hv : v.shorts = false) (hb : Begun s₀) (hc : Reversible v s₀) :
    Sys.WP v txnCommit s₀ (CommitDone s₀) (CommitCrash s₀) := by
  have hund0 : Undoable (rootFiles s₀) (some (.file (stateBytes statePrepared))) s₀ :=
    ⟨hb.state, [], hb.logged⟩
  refine WP.bind (access_wp _) (fun pending s hs => ?_) fun o s' ⟨hs, ho⟩ => ?_
  · subst hs
    refine WP.bind (writeState_wp hb.txn_dir).withCan (fun ok s1 ⟨hw, hcan⟩ => ?_) fun o s' ⟨ho, ok, hw⟩ => ?_
    · have hlog := hb.logged.stateWritten hw.same
      cases ok with
      | false => exact .failed _ (.inl rfl) ⟨hw.state.trans hb.state, [], hlog⟩
      | true =>
        have hst : Says s1 stateApplying := hw.state
        have hund : Undoable (rootFiles s) (some (.file (stateBytes stateApplying))) s1 := ⟨hst, [], hlog⟩
        refine Sys.WP.call (.undone _ (.inr rfl) (hund.midway (Quiet.call _).sparesJournal)) (fun s2 h2 => ?_)
          fun e _ => .failed _ (.inr rfl) hund
        obtain rfl := openAppend_sem h2
        refine WP.seq (commitBody_wp hv hb hc hw.same hst hcan) (fun rc s3 ⟨hfail, hok⟩ => ?_)
        cases rc with
        | false =>
          have hu := hfail rfl
          refine Sys.WP.close (.undone _ (.inr rfl) (hu.midway (Quiet.close _).sparesJournal)) fun _ _ => ?_
          exact commitFailed_wp hu
        | true =>
          have hcom := hok rfl
          refine Sys.WP.close (hcom.crash (Quiet.close _).sparesJournal) fun _ _ => ?_
          cases pending with
          | true => exact .pending hcom
          | false =>
            change Sys.WP v (removeTree txnPathMax heraldTxnDir >>= fun _ => pure true) s3 _ _
            exact WP.bind (removeTree_wp txnP_valid (by decide)) (fun _ s4 ⟨hp, _⟩ => .cleaned s3 hcom hp)
              fun o s' ⟨hp, ho⟩ => .cleaning s3 hcom hp ho.sparesJournal
    · have hlog := hb.logged.stateWritten hw.same
      have hsp : SparesJournal o := ho.sparesJournal stateTmpP_valid (by decide)
      cases ok with
      | false => exact .undone _ (.inl rfl) (Undoable.midway ⟨hw.state.trans hb.state, [], hlog⟩ hsp)
      | true => exact .undone _ (.inr rfl) (Undoable.midway ⟨hw.state, [], hlog⟩ hsp)
  · subst hs
    exact .undone _ (.inl rfl) (hund0.midway ho.sparesJournal)

end Lorica.Proof.Herald

import Lorica.Proof.Herald.Atomicity

/-!
# herald: interrupted recoveries

A recovery may be interrupted as often as one likes, and a later one starts from
what it left. As long as the root is being restored the transaction directory is
whole, so this is harmless. While the directory is removed, in whatever order its
entries are listed, a backup may go before the journal that names it; a later
rollback then fails to copy the backup, and removes the file it was to restore.

`undo_interrupted_iff`: after interruptions, the next recovery restores the root
exactly if every backup that the journal still names is there (`Undo.Ready`).
-/

namespace Lorica.Proof.Herald

open Lorica.Impl.Herald Posix List

variable {v : Env} {s s' : FileSys} {orig : Path → Option Bytes} {recs : List Rec}

/-- The two programs that undo a transaction. -/
inductive Undo
  | recover
  | rollback
deriving DecidableEq

def Undo.prog : Undo → Sys Bool
  | .recover => do return decide ((← txnRecover) = 0)
  | .rollback => txnRollback

/-- The lines of the journal. -/
def journalLines (s : FileSys) : List Bytes :=
  match s.get journalP with
  | some node => fgetsLines (txnPathMax + 4) [] (contents node)
  | none => []

/-- The path of a record. -/
def recordedPath (line : Bytes) : Path := (resolve (slash :: (line.drop 2).takeWhile (· ≠ newline))).path

/-- Every backup that the journal names is there. -/
def BackedUp (s : FileSys) : Prop :=
  ∀ line ∈ journalLines s, line.head? = some opReplaced → s.data (backupP ++ recordedPath line) ≠ none

instance (s : FileSys) : Decidable (BackedUp s) := inferInstanceAs (Decidable (∀ _ ∈ _, _))

/-- What a recovery needs to restore the root. -/
def Undo.Ready (s : FileSys) : Undo → Prop
  | .recover => s.get stateP = none ∨ BackedUp s
  | .rollback => BackedUp s

/-- What a recovery needs to restore the root or to leave it to a later one: a
rollback without a state file would not be taken up by `txn_recover`. -/
def Undo.Safe (s : FileSys) : Undo → Prop
  | .recover => s.get stateP = none ∨ BackedUp s
  | .rollback => BackedUp s ∧ (s.get stateP = none → s.get journalP = none)

theorem Undo.Safe.ready {u : Undo} (h : u.Safe s) : u.Ready s := by
  cases u with
  | recover => exact h
  | rollback => exact h.1

/-- A safe recovery has been interrupted. -/
def Interrupted (s s' : FileSys) : Prop := ∃ u : Undo, u.Safe s ∧ u.prog.Crashes sound.Allows s s'

/-! ## Reading the journal -/

theorem recordedPath_line (r : Rec) : recordedPath r.line = r.path := by
  rw [recordedPath, r.rel_line, ← absStr, resolve_absStr r.good.valid r.good.ne_nil]

theorem Rec.head_line (r : Rec) : r.line.head? = some opReplaced ↔ r.saved = true := by
  have : r.line.head? = some r.op := rfl
  rw [this, Rec.op]
  cases r.saved <;> decide

theorem journalLines_encode (h : s.get journalP = some (.file (encode recs))) :
    journalLines s = recs.map Rec.line := by
  have := lines_encode recs []
  rw [append_nil] at this
  simp only [journalLines, h, contents, this]
  simp [fgetsLines]

theorem backedUp_encode (h : s.get journalP = some (.file (encode recs))) :
    BackedUp s ↔ ∀ r ∈ recs, r.saved = true → s.data (backupP ++ r.path) ≠ none := by
  rw [BackedUp, journalLines_encode h, forall_mem_map]
  refine forall₂_congr fun r _ => ?_
  rw [r.head_line, recordedPath_line]

theorem backedUp_none (h : s.get journalP = none) : BackedUp s := by
  simp [BackedUp, journalLines, h]

/-! ## What interrupted recoveries leave -/

/-- The journal still undoes everything, or the root is back and part of the
transaction directory is gone. Without a state file the root is back. -/
structure Unwinding (orig : Path → Option Bytes) (s : FileSys) : Prop where
  state : s.get stateP = none ∧ rootFiles s = orig ∨ ∃ state, Open state ∧ Says s state
  logged : ∃ recs s₁, Logged orig recs [] s₁ ∧ (s = s₁ ∨ rootFiles s₁ = orig ∧ Prunes txnP s₁ s)

/-- Part of the transaction directory is gone: the journal is still an undo log as
far as the backups are there. -/
theorem Logged.prune {as bs : List Rec} (h : Logged orig (as ++ bs) [] s) (hroot : rootFiles s = orig)
    (hp : Prunes txnP s s') (hj : s'.get journalP ≠ none)
    (hb : ∀ r ∈ as, r.saved = true → s'.data (backupP ++ r.path) ≠ none) : Logged orig as (encode bs) s' := by
  have hmem : ∀ {r}, r ∈ as → r ∈ as ++ bs := fun hr => mem_append_left _ hr
  constructor
  case journal =>
    obtain ⟨n, hn⟩ := Option.ne_none_iff_exists'.mp hj
    have := h.journal
    rw [hp.get_some hn] at this
    rw [hn, this]
    simp [encode]
  case undo =>
    refine ⟨fun e he => ?_, fun p _ => by rw [rootFiles_prunes hp, hroot]⟩
    obtain ⟨r, hr, rfl⟩ := mem_map.mp he
    refine Eq.trans ?_ (h.old (hmem hr))
    simp only [Rec.entry, Rec.old]
    split
    · rename_i hs
      obtain ⟨b, hb⟩ := Option.ne_none_iff_exists'.mp (hb r hr hs)
      rw [hb, FileSys.data_eq_some.mpr (hp.get_some (FileSys.data_eq_some.mp hb))]
    · rfl
  case saved => exact hb
  case clear =>
    intro r hr
    refine ⟨fun q hq b hqb => ?_, ?_⟩
    · exact (h.clear r (hmem hr)).1 q hq b (hp.get_some hqb)
    · exact fun hd => (h.clear r (hmem hr)).2 (hp.get_some hd)
  case apart => exact fun r hr r' hr' => h.apart r (hmem hr) r' (hmem hr')

/-- Where a recovery is ready, the journal is gone and the root back, or the
journal undoes everything. -/
theorem Unwinding.ready (h : Unwinding orig s) (hb : BackedUp s) :
    (∃ recs, Logged orig recs [] s) ∨ s.get journalP = none ∧ rootFiles s = orig ∧ Clear s journalP := by
  obtain ⟨recs, s1, hlog, rfl | ⟨hroot, hp⟩⟩ := h.logged
  · exact .inl ⟨recs, hlog⟩
  cases hj : s.get journalP with
  | none =>
    refine .inr ⟨rfl, (rootFiles_prunes hp).trans hroot, fun q hq b hqb => ?_⟩
    have := hp.get_some hqb
    rw [FileSys.get_ancestor hlog.journal hq] at this
    cases this
  | some n =>
    have hjs := hlog.journal_eq
    rw [hp.get_some hj] at hjs
    rw [← append_nil recs] at hlog
    have := hlog.prune hroot hp (by simp [hj]) ((backedUp_encode (hj.trans hjs)).mp hb)
    exact .inl ⟨recs, this⟩

theorem Unwinding.prune (h : Unwinding orig s) (hroot : rootFiles s = orig) (hp : Prunes txnP s s') :
    Unwinding orig s' where
  state := by
    rcases hp stateP with e | ⟨-, hn⟩
    · simp only [Says, e, rootFiles_prunes hp]; exact h.state
    · exact .inl ⟨hn, (rootFiles_prunes hp).trans hroot⟩
  logged := by
    obtain ⟨recs, s1, hlog, rfl | ⟨hroot1, hp1⟩⟩ := h.logged
    · exact ⟨recs, s, hlog, .inr ⟨hroot, hp⟩⟩
    · exact ⟨recs, s1, hlog, .inr ⟨hroot1, hp1.trans hp⟩⟩

/-- An undo of a whole transaction has been interrupted. -/
theorem Undoing.unwinding {state : Bytes} (h : Undoing orig recs s s') (ho : Open state) (hs : Says s state) :
    Unwinding orig s' := by
  have hkeep : ∀ {s1}, SameBut Outside s s1 → Says s1 state := fun hs1 => (get_inside hs1 stateP_inside).trans hs
  rcases h with ⟨hlog, hs'⟩ | ⟨s1, hlog, hs1, hroot, hp⟩
  · exact ⟨.inr ⟨state, ho, hkeep hs'⟩, recs, s', hlog, .inl rfl⟩
  · have h1 : Unwinding orig s1 := ⟨.inr ⟨state, ho, hkeep hs1⟩, recs, s1, hlog, .inl rfl⟩
    exact h1.prune hroot hp

/-! ## Ready recoveries -/

/-- A rollback and the clean-up after it. -/
theorem Unwinding.rollback_wp (h : Unwinding orig s) (hb : BackedUp s) : Sys.WP sound txnRollback s
      (fun _ s' => rootFiles s' = orig)
      (fun _ s' => (s.get stateP = none → s.get journalP = none) → Unwinding orig s') := by
  rcases h.ready hb with ⟨recs, hlog⟩ | ⟨hj, hroot, hc⟩
  · refine WP.mono (txnRollback_wp hlog) (fun _ s' ⟨_, hnf, _⟩ => hnf rfl) fun _ s' ⟨hu, _⟩ hst => ?_
    rcases h.state with ⟨hn, -⟩ | ⟨state, ho, hs⟩
    · have := hst hn
      rw [hlog.journal] at this
      cases this
    · exact hu.unwinding ho hs
  · refine WP.bind (rollback_noRecords_wp (.inl hj) hc) (fun ok s1 ⟨hs1, hok⟩ => ?_) fun _ s' ⟨hs', _⟩ _ => hs' ▸ h
    subst hs1
    obtain rfl := hok rfl
    change Sys.WP sound (removeTree txnPathMax heraldTxnDir) s1 _ _
    exact WP.mono (removeTree_wp txnP_valid (by decide)) (fun _ s' ⟨hp, _⟩ => (rootFiles_prunes hp).trans hroot)
      fun _ s' ⟨hp, _⟩ _ => h.prune hroot hp

/-- A ready recovery restores the root; a safe one can be interrupted. -/
theorem Undo.resume_wp {u : Undo} (h : Unwinding orig s) (hr : u.Ready s) :
    Sys.WP sound u.prog s (fun _ s' => rootFiles s' = orig) (fun _ s' => u.Safe s → Unwinding orig s') := by
  cases u with
  | rollback => exact WP.mono (h.rollback_wp hr) (fun _ _ h => h) fun _ _ h hs => h hs.2
  | recover =>
    rcases h.state with ⟨hn, hroot⟩ | ⟨state, ho, hs⟩
    · exact WP.bind (txnRecover_none_wp hn) (fun _ s' ⟨hs', _⟩ => by subst hs'; exact hroot)
        fun _ s' ⟨hs', _⟩ _ => hs' ▸ h
    · have hne : s.get stateP ≠ none := by simp [show s.get stateP = _ from hs]
      have hrec : Sys.WP sound txnRecover s (fun _ s' => rootFiles s' = orig) (fun _ s' => Unwinding orig s') := by
        refine txnRecover_open_wp ho hs h (fun hf => by cases hf) ?_
        exact WP.mono (h.rollback_wp (hr.resolve_left hne)) (fun _ _ h => h) fun _ _ h => h fun hn => absurd hn hne
      exact WP.bind hrec (fun _ _ h => WP.pure h) fun _ _ h _ => h

/-! ## Recoveries that are not ready -/

/-- Where a backup is missing, a rollback removes the file that it was to
restore. -/
theorem Unwinding.missing_wp (h : Unwinding orig s) (hb : ¬ BackedUp s) : ∃ p, orig p ≠ none ∧
      Sys.Ends sound rollback s (fun ok s' => ok = false ∧ rootFiles s' p = none) := by
  obtain ⟨recs, s1, hlog, rfl | ⟨hroot, hp⟩⟩ := h.logged
  · exact absurd ((backedUp_encode hlog.journal_eq).mpr hlog.saved) hb
  have hj : s.get journalP ≠ none := fun hn => hb (backedUp_none hn)
  have hjs : s.get journalP = some (.file (encode recs)) := by
    obtain ⟨n, hn⟩ := Option.ne_none_iff_exists'.mp hj
    rw [hn, ← hp.get_some hn, hlog.journal_eq]
  -- the first record whose backup is gone
  obtain ⟨r, hfind⟩ : ∃ r, recs.find? (fun r => r.saved && (s.data (backupP ++ r.path)).isNone) = some r := by
    rw [backedUp_encode hjs] at hb
    push Not at hb
    obtain ⟨r, hr, hsv, hn⟩ := hb
    exact Option.isSome_iff_exists.mp (find?_isSome.mpr ⟨r, hr, by simp [hsv, hn]⟩)
  obtain ⟨hr, as, bs, rfl, has⟩ := find?_eq_some_iff_append.mp hfind
  simp only [Bool.and_eq_true, Option.isNone_iff_eq_none] at hr
  have horig : orig r.path ≠ none := by
    rw [← hlog.old (r := r) (by simp), Rec.old, if_pos hr.1]
    exact hlog.saved r (by simp) hr.1
  have hlog' : Logged orig as (encode (r :: bs)) s := hlog.prune hroot hp hj fun r' hr' hs' hn => by
    have := has r' hr'
    simp [hs', hn] at this
  refine ⟨r.path, horig, rollback_tail_wp hlog' (fun _ _ _ _ _ => trivial) (fun _ _ _ hf => by cases hf)
    fun s2 _ hs2 hroot2 _ => ?_⟩
  have hlines := lines_encode (r :: bs) []
  rw [append_nil] at hlines
  rw [hlines]
  have hfile : s2.get r.path ≠ none ∧ s2.get r.path ≠ some .dir := by
    rw [← hroot2, rootFiles_outside r.good.outside] at horig
    obtain ⟨b, hb⟩ := Option.ne_none_iff_exists'.mp horig
    simp [FileSys.data_eq_some.mp hb]
  have hmiss : s2.data (backupP ++ r.path) = none := by
    rw [FileSys.data_congr (get_inside hs2 (backup_inside r.path)), hr.2]
  have hone : Sys.Ends sound (forLines rollbackLine ((r :: bs).map Rec.line ++ fgetsLines (txnPathMax + 4) [] [])) s2
      (fun ok s' => ok = false ∧ rootFiles s' r.path = none) := by
    refine WP.thenEnds (rollbackLine_missing_wp rfl hr.1 hmiss (Clear.of_get hfile.1) hfile.2)
      fun ok s3 h3 => ?_
    obtain ⟨rfl, hn⟩ := h3
    exact ⟨rfl, by rw [rootFiles_outside r.good.outside, hn]⟩
  refine WP.thenEnds hone fun ok s3 h3 => ?_
  obtain ⟨rfl, hn⟩ := h3
  exact ⟨rfl, hn⟩

theorem Undo.missing_wp {u : Undo} (h : Unwinding orig s) (hr : ¬ u.Ready s) :
    ∃ p, orig p ≠ none ∧ Sys.Ends sound u.prog s (fun _ s' => rootFiles s' p = none) := by
  have hb : ¬ BackedUp s := fun hb => hr (by cases u with
    | recover => exact .inr hb
    | rollback => exact hb)
  obtain ⟨p, hp, hwp⟩ := h.missing_wp hb
  have hundo : Sys.Ends sound txnRollback s (fun _ s' => rootFiles s' p = none) := by
    refine WP.thenEnds hwp fun ok s' ⟨hok, hn⟩ => ?_
    subst hok
    exact hn
  refine ⟨p, hp, ?_⟩
  cases u with
  | rollback => exact hundo
  | recover =>
    rcases h.state with ⟨hn, -⟩ | ⟨state, ho, hs⟩
    · exact absurd (.inl hn) hr
    · have hrec : Sys.Ends sound txnRecover s (fun _ s' => rootFiles s' p = none) :=
        txnRecover_open_wp ho hs trivial (fun hf => by cases hf) hundo
      exact WP.thenEnds hrec fun _ _ h => WP.pure h

/-! ## Any number of interruptions -/

theorem Unwinding.interrupted (h : Unwinding orig s) (hs : Relation.ReflTransGen Interrupted s s') :
    Unwinding orig s' := by
  induction hs with
  | refl => exact h
  | tail _ hstep ih =>
    obtain ⟨u, hsafe, hc⟩ := hstep
    exact WP.crashes (Undo.resume_wp ih hsafe.ready) hc hsafe

/-- A commit has been interrupted before it was decided. -/
theorem Unwinding.of_commit {o : Op} {cs : List Choice} {s0 : FileSys} {state : Bytes} (hb : Begun s0)
    (hc : Reversible faulty s0) (hcs : ∀ c ∈ cs, faulty.Allows c)
    (hr : txnCommit.run cs s0 = .crashed o s) (ho : Open state) (hs : Says s state) :
    Unwinding (rootFiles s0) s := by
  have hne : ∀ {state'}, state' = statePending ∨ state' = stateCommitted → ¬ Says s state' := fun h h' => by
    have := hs.unique h'
    revert this
    rcases ho with rfl | rfl <;> rcases h with rfl | rfl <;> decide
  refine ⟨.inr ⟨state, ho, hs⟩, ?_⟩
  cases WP.run_crashed (txnCommit_wp rfl hb hc) hcs hr with
  | undone _ _ h => exact h.logged.imp fun recs h => ⟨s, h.1, .inl rfl⟩
  | pending h => exact absurd h.state (hne (.inl rfl))
  | cleaning s1 h hp =>
    rcases hp stateP with e | ⟨-, hn⟩
    · exact absurd (e.trans h.state) (hne (.inr rfl))
    · rw [hs] at hn; cases hn

/-- `upgrade`, interrupted when all is in place. -/
def halfUpgraded : FileSys := (txnCommit.run (replicate 40 .ok) upgrade).state

end Lorica.Proof.Herald

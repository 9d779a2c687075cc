import Lorica.Proof.Herald.Journal

/-!
# herald: applying a transaction

`txn_commit` prepares every target (backs it up, records it, makes its
directories) before it changes it. `Applying orig recs s` is what holds between
two targets: the root can be brought back to `orig` with the records `recs`, and
every recorded path has its directories. `Free recs s` says that no file is
staged at or below a recorded path that is not there: then the staged files can
be prepared, too.

`prepareTarget_wp`, `applyDelete_wp` and `moveTarget_wp` are one target each,
`applyDeletes_wp` and `applyStageDir_wp` the two loops. Wherever they stop, by a
fault or by a crash, the root can be brought back (`Undoable`, `Midway`); a loop
that succeeds has done all of its work.
-/

namespace Lorica.Proof.Herald

open Lorica.Impl.Herald Posix List

variable {v : Env} {s s' : FileSys} {p q : Path} {orig : Path → Option Bytes} {recs : List Rec}
  {st : Option Node}

/-- The root can be brought back to `orig`, and the state file is `st`. -/
structure Undoable (orig : Path → Option Bytes) (st : Option Node) (s : FileSys) : Prop where
  state : s.get stateP = st
  logged : ∃ recs, Logged orig recs [] s

/-- The next record: of a path that has none, and that is there if it is to be
saved. The recorded ones have their directories. -/
structure Rec.Next (recs : List Rec) (s : FileSys) (r : Rec) : Prop where
  fresh : ∀ r' ∈ recs, r'.path ≠ r.path
  there : r.saved = true → s.data r.path ≠ none
  dirs : ∀ r' ∈ recs, ∀ q ∈ ancestors r'.path, s.get q = some .dir

/-- A crash in the middle of a commit, before the operation `o`. If that is a
write to the journal, it is a whole record. -/
structure Midway (orig : Path → Option Bytes) (st : Option Node) (o : Op) (s : FileSys) : Prop where
  state : s.get stateP = st
  logged : ∃ recs, Logged orig recs [] s ∧
    ∀ bs, o = .write txnJournal bs → ∃ r : Rec, bs = r.line ∧ r.Next recs s

theorem Undoable.midway {o : Op} (h : Undoable orig st s) (ho : SparesJournal o) : Midway orig st o s :=
  ⟨h.state, h.logged.imp fun _ h => ⟨h, fun bs e => absurd e (ho bs)⟩⟩

/-- What preparing a target `p` changes: directories above it, backups and the
journal. -/
structure Prepared (p : Path) (s s' : FileSys) : Prop where
  outside : ∀ q, Outside q → s'.get q = s.get q ∨ q ∈ ancestors p ∧ s.get q = none ∧ s'.get q = some .dir
  inside : ∀ q, txnP <+: q → ¬ backupP <+: q → q ≠ journalP → s'.get q = s.get q

theorem Prepared.refl (p : Path) (s : FileSys) : Prepared p s s := ⟨fun _ _ => .inl rfl, fun _ _ _ _ => rfl⟩

theorem Prepared.trans {s'' : FileSys} (h : Prepared p s s') (h' : Prepared p s' s'') : Prepared p s s'' where
  outside q hq := by
    rcases h.outside q hq with e | ⟨ha, hn, hd⟩ <;> rcases h'.outside q hq with e' | ⟨ha', hn', hd'⟩
    · exact .inl (e'.trans e)
    · exact .inr ⟨ha', e ▸ hn', hd'⟩
    · exact .inr ⟨ha, hn, e'.trans hd⟩
    · rw [hd] at hn'; cases hn'
  inside q hq hb hj := (h'.inside q hq hb hj).trans (h.inside q hq hb hj)

theorem Prepared.of_stash (h : Pokes (backupP ++ q) s s') (hd : s.get txnP = some .dir) : Prepared p s s' := by
  have hs : SameBut (txnP <+: ·) s s' := by
    refine Pokes.sameBut (q := ascii "backup" :: q) ?_ hd
    simpa [backupP] using h
  refine ⟨fun q hq => .inl (hs q hq), fun r hr hb _ => ?_⟩
  refine (h.other r fun e => hb (e ▸ prefix_append _ _)).resolve_right fun hmade => ?_
  obtain ⟨ha, hn, -⟩ := hmade
  -- an ancestor in the transaction directory, other than those in the backup, is the directory itself
  rcases prefix_or_prefix_of_prefix (mem_ancestors.mp ha).1 (prefix_append backupP q) with h | h
  · have hr' : r = txnP := by
      refine (hr.eq_of_length_le ?_).symm
      have hlt : r.length < backupP.length := lt_of_le_of_ne h.length_le fun e =>
        hb (h.eq_of_length e ▸ prefix_refl _)
      exact Nat.le_of_lt_succ hlt
    rw [hr', hd] at hn
    cases hn
  · exact hb h

theorem Prepared.of_journal (h : SameBut (· = journalP) s s') : Prepared p s s' :=
  ⟨fun q hq => .inl (h q fun e => hq (e ▸ journalP_inside)), fun q _ _ hj => h q hj⟩

theorem Prepared.of_makes (h : Makes p s s') (hp : Outside p) : Prepared p s s' :=
  ⟨fun q _ => h q, fun _ hq _ _ => get_inside (pokes_outside h.pokes hp) hq⟩

theorem Prepared.rootFiles (h : Prepared p s s') : rootFiles s' = rootFiles s := by
  refine rootFiles_congr fun q hq => ?_
  rcases h.outside q hq with e | ⟨-, hn, hd⟩
  · exact FileSys.data_congr e
  · simp only [FileSys.data, hn, hd]

theorem Prepared.get_self (h : Prepared p s s') (hp : Outside p) : s'.get p = s.get p :=
  (h.outside p hp).resolve_right fun ⟨ha, _⟩ => not_mem_ancestors_self p ha

theorem Prepared.state (h : Prepared p s s') : s'.get stateP = s.get stateP :=
  h.inside stateP stateP_inside (by decide) (by decide)

/-! ## One target -/

variable {r : Rec} {s₁ s₀ : FileSys} {done : List Path} {b : Bytes} {d : Path}

/-- Recording a target and making its directories. -/
theorem recordTarget_wp (hv : v.shorts = false) (h : Logged orig recs [] s)
    (hst : s.get stateP = st) (hnext : r.Next recs s) (hold : r.old s = rootFiles s r.path)
    (hsaved : r.saved = true → s.data (backupP ++ r.path) ≠ none)
    (hclear : Clear s r.path ∧ s.get r.path ≠ some .dir)
    (hapart : ∀ r' ∈ recs, r'.path ∉ ancestors r.path ∧ r.path ∉ ancestors r'.path) :
    Sys.WP v (do if ← journal r.op (str r.path) then parentDirs (absStr r.path) else pure false) s
      (fun ok s' => Undoable orig st s' ∧ Prepared r.path s s' ∧
        (ok = true → Logged orig (recs ++ [r]) [] s' ∧ ∀ q ∈ ancestors r.path, s'.get q = some .dir))
      (Midway orig st) := by
  have hj : s.get journalP = some (.file (encode recs)) := by simpa using h.journal
  have hstate : ∀ {s'}, SameBut (· = journalP) s s' → s'.get stateP = st := fun hs =>
    (hs stateP (by decide)).trans hst
  -- the journal as it was, or with the record
  have hkeep : ∀ {s'}, SameBut (· = journalP) s s' → s'.get journalP = some (.file (encode recs)) →
      Logged orig recs [] s' := fun hs hg =>
    h.of_inside (hs.mono fun q e => e ▸ journalP_inside) (by simpa using hg) fun r _ _ =>
      hs.data_eq (journalP_ne_backup r.path).symm
  have hrec : ∀ {s'}, SameBut (· = journalP) s s' → s'.get journalP = some (.file (encode recs ++ r.line)) →
      Logged orig (recs ++ [r]) [] s' := fun hs hg =>
    h.record hs hg hold hsaved hnext.fresh hclear hapart
  refine WP.bind (journal_wp r hv hj) (fun ok s₁ ⟨hs1, hg⟩ => ?_) fun o s' ⟨hs', hg⟩ => ?_
  · cases ok with
    | false =>
      refine ⟨⟨hstate hs1, ?_⟩, .of_journal hs1, by simp⟩
      rcases hg with hg | ⟨-, hg⟩
      · exact ⟨_, hrec hs1 hg⟩
      · exact ⟨_, hkeep hs1 hg⟩
    | true =>
      have h1 := hrec hs1 (hg.resolve_right nofun)
      have hmem : r ∈ recs ++ [r] := by simp
      have hund : ∀ {s'}, Makes r.path s₁ s' → Undoable orig st s' := fun hm =>
        ⟨(get_inside (pokes_outside hm.pokes r.good.outside) stateP_inside).trans (hstate hs1),
          _, h1.poke hmem hm.pokes⟩
      refine WP.mono (parentDirs_wp r.good.valid r.good.ne_nil r.good.short_abs)
        (fun ok s2 ⟨hm, hd, _⟩ => ⟨hund hm, (Prepared.of_journal hs1).trans (.of_makes hm r.good.outside), ?_⟩)
        fun o s2 ⟨hm, ho⟩ => (hund hm).midway (ho.sparesJournal r.good.valid r.ne_journal)
      intro e
      exact ⟨h1.poke hmem hm.pokes, hd e (h1.clear r hmem).1⟩
  · rcases hg with ⟨ho, hg⟩ | ⟨ho, hg⟩
    · refine ⟨hstate hs', recs, hkeep hs' hg, fun bs e => ⟨r, ?_, hnext.fresh, fun hsv => ?_, fun r' hr' q hq => ?_⟩⟩
      · rw [ho] at e; cases e; rfl
      · rw [hs'.data_eq r.ne_journal]
        exact hnext.there hsv
      · have hout := outside_above r'.good.outside (mem_ancestors.mp hq).1
        rw [hs' q fun e => hout (e ▸ journalP_inside)]
        exact hnext.dirs r' hr' q hq
    · exact Undoable.midway ⟨hstate hs', _, hrec hs' hg⟩ ho

/-- A path that may become a target after the records `recs`. -/
structure Target (recs : List Rec) (s : FileSys) (p : Path) : Prop where
  valid : ValidPath p
  ne_nil : p ≠ []
  outside : Outside p
  no_newline : ∀ n ∈ p, newline ∉ n
  fresh : ∀ r ∈ recs, r.path ≠ p
  /-- A file can only be made where no recorded file has been removed above. -/
  free : s.get p = none → ∀ r ∈ recs, r.path ∈ ancestors p → s.get r.path ≠ none

/-- A target that is a file or is not there is neither above nor below a recorded
path. -/
theorem Target.apart (ht : Target recs s p) (h : Logged orig recs [] s)
    (hdirs : ∀ r ∈ recs, ∀ q ∈ ancestors r.path, s.get q = some .dir) (hc : Clear s p)
    (hd : s.get p ≠ some .dir) : ∀ r ∈ recs, r.path ∉ ancestors p ∧ p ∉ ancestors r.path := by
  intro r hr
  refine ⟨fun ha => ?_, fun ha => hd (hdirs r hr p ha)⟩
  cases hg : s.get r.path with
  | none =>
    refine ht.free ?_ r hr ha hg
    exact FileSys.get_below_none hg ha
  | some n =>
    cases n with
    | dir => exact (h.clear r hr).2 hg
    | file b => exact hc r.path ha b hg

/-- A path that is too long is refused. -/
theorem prepareTarget_long (hne : p ≠ []) (h : ¬ Short p) : prepareTarget (str p) = pure false := by
  rw [Short, ← backup_name hne] at h
  simp only [prepareTarget]
  rw [if_pos (.inr (.inr (not_lt.mp h)))]

/-- `prepare_target`: on success the target is recorded, with its directories
made, and is itself untouched. -/
theorem prepareTarget_wp (hv : v.shorts = false) (h : Logged orig recs [] s) (hst : s.get stateP = st)
    (hdirs : ∀ r ∈ recs, ∀ q ∈ ancestors r.path, s.get q = some .dir) (ht : Target recs s p) :
    Sys.WP v (prepareTarget (str p)) s (fun ok s' => Undoable orig st s' ∧ Prepared p s s' ∧
        (ok = true → ∃ r : Rec, r.path = p ∧ (r.saved = true ↔ s.data p ≠ none) ∧
          Logged orig (recs ++ [r]) [] s' ∧ ∀ q ∈ ancestors p, s'.get q = some .dir)) (Midway orig st) := by
  have hund : Undoable orig st s := ⟨hst, recs, h⟩
  have hfail : Sys.WP v (pure false : Sys Bool) s
      (fun ok s' => Undoable orig st s' ∧ Prepared p s s' ∧
        (ok = true → ∃ r : Rec, r.path = p ∧ (r.saved = true ↔ s.data p ≠ none) ∧
          Logged orig (recs ++ [r]) [] s' ∧ ∀ q ∈ ancestors p, s'.get q = some .dir))
      (Midway orig st) := ⟨hund, .refl p s, by simp⟩
  simp only [prepareTarget, safeRel_str ht.valid ht.ne_nil, Bool.true_eq_false, false_or,
    backup_name ht.ne_nil]
  split
  · exact hfail
  rename_i hlen
  have hgood : Recordable p :=
    ⟨ht.valid, ht.ne_nil, ht.outside, ht.no_newline, by rw [not_or] at hlen; exact not_le.mp hlen.2⟩
  refine Sys.WP.lstat (hund.midway (Quiet.lstat _).sparesJournal) fun res hres => ?_
  change res = s.stat (resolve (absStr p)) ∨ _ at hres
  rw [resolve_absStr ht.valid ht.ne_nil] at hres
  rcases hres with hres | ⟨-, hres⟩
  · rcases res with e | (b | _)
    · cases e
      case ENOENT =>
        -- not there: a new file
        have hn : s.get p = none := FileSys.get_of_stat_enoent hres.symm
        have hc : Clear s p := Clear.of_enoent hres.symm
        let r : Rec := ⟨false, p, hgood⟩
        have hdn : s.data p = none := FileSys.data_eq_none.mpr fun b hb => by rw [hn] at hb; cases hb
        have hnd : s.get p ≠ some .dir := by rw [hn]; nofun
        refine WP.post (recordTarget_wp (r := r) hv h hst ⟨ht.fresh, nofun, hdirs⟩ ?_ nofun ⟨hc, hnd⟩
          (ht.apart h hdirs hc hnd)) (fun ok s' ⟨hu, hp, hok⟩ => ⟨hu, hp, fun e => ?_⟩)
        · rw [rootFiles_outside ht.outside, hdn]; rfl
        · exact ⟨r, rfl, by simp [hdn], hok e⟩
      all_goals exact hfail
    · -- there: back it up first
      have hb : s.get p = some (.file b) := (FileSys.stat_ok hres.symm).1
      let r : Rec := ⟨true, p, hgood⟩
      refine WP.bind (copyFile_wp ht.valid ht.ne_nil r.backup_valid (by simp [ht.ne_nil]) hgood.short)
        (fun ok s₁ ⟨hp, hok, _⟩ => ?_) fun o s' ⟨hp, ho⟩ => ?_
      · have h1 := h.stash hp ht.fresh
        have hprep : Prepared p s s₁ := .of_stash hp h.txn_dir
        have hst1 : s₁.get stateP = st := hprep.state.trans hst
        cases ok with
        | false => exact ⟨⟨hst1, recs, h1⟩, hprep, by simp⟩
        | true =>
          obtain ⟨b', hb', hbak⟩ := hok rfl
          rw [hb] at hb'
          cases hb'
          have hb1 : s₁.get p = some (.file b) := (hprep.get_self ht.outside).trans hb
          have hdata : s₁.data p = some b := FileSys.data_eq_some.mpr hb1
          have hbd : s₁.data (backupP ++ p) = some b := FileSys.data_eq_some.mpr hbak
          have hapart := ht.apart h hdirs (Clear.of_get (by simp [hb])) (by simp [hb])
          have hold : r.old s₁ = rootFiles s₁ p := by
            rw [rootFiles_outside ht.outside, hdata]; exact hbd
          have hdirs1 : ∀ r' ∈ recs, ∀ q ∈ ancestors r'.path, s₁.get q = some .dir := fun r' hr' q hq => by
            refine (hprep.outside q (outside_above r'.good.outside (mem_ancestors.mp hq).1)).elim (fun e => ?_) (·.2.2)
            rw [e, hdirs r' hr' q hq]
          refine WP.post (recordTarget_wp (r := r) hv h1 hst1 ⟨ht.fresh, fun _ => by simp [r, hdata], hdirs1⟩ hold
            (fun _ => by simp [r, hbd]) ⟨Clear.of_get (by simp [r, hb1]), by simp [r, hb1]⟩ hapart)
            (fun ok s' ⟨hu, hp', hok'⟩ => ⟨hu, hprep.trans hp', fun e => ?_⟩)
          exact ⟨r, rfl, by simp [r, FileSys.data_eq_some.mpr hb], hok' e⟩
      · exact Undoable.midway ⟨(Prepared.of_stash (p := p) hp h.txn_dir).state.trans hst, recs, h.stash hp ht.fresh⟩
          (ho.sparesJournal r.backup_valid (journalP_ne_backup p).symm)
    · exact hfail
  · subst hres
    exact hfail

/-! ## Between two targets -/

/-- The root can be brought back to `orig`, and another target can be prepared. -/
structure Applying (orig : Path → Option Bytes) (recs : List Rec) (s : FileSys) : Prop where
  logged : Logged orig recs [] s
  dirs : ∀ r ∈ recs, ∀ q ∈ ancestors r.path, s.get q = some .dir

/-- What is staged and fits is not recorded yet, and no recorded file above it is
gone. -/
def Free (recs : List Rec) (s : FileSys) : Prop :=
  ∀ p b, s.get (stageP ++ p) = some (.file b) → Short p →
    ∀ r ∈ recs, r.path ≠ p ∧ (r.path ∈ ancestors p → s.get r.path ≠ none)

/-- A target that has been prepared and then changed. -/
theorem Applying.next (h : Applying orig recs s) (hfile : s.get r.path ≠ some .dir)
    (hp : ∀ q, Outside q → s₁.get q = s.get q ∨ q ∈ ancestors r.path ∧ s.get q = none ∧ s₁.get q = some .dir)
    (hlog : Logged orig (recs ++ [r]) [] s₁)
    (hdirs : ∀ q ∈ ancestors r.path, s₁.get q = some .dir) (hs : Pokes r.path s₁ s') :
    Applying orig (recs ++ [r]) s' where
  logged := hlog.poke (by simp) hs
  dirs r' hr' q hq := by
    rcases mem_append.mp hr' with hr' | hr'
    · have hd := h.dirs r' hr' q hq
      have hout := outside_above r'.good.outside (mem_ancestors.mp hq).1
      refine hs.get_dir (fun e => hfile (e ▸ hd)) ?_
      exact ((hp q hout).resolve_right fun ⟨_, hn, _⟩ => by rw [hd] at hn; cases hn).trans hd
    · rw [mem_singleton] at hr'
      subst hr'
      exact hs.get_dir (fun e => not_mem_ancestors_self _ (e ▸ hq)) (hdirs q hq)

/-! ## Deletes -/

/-- The path that a line of the delete file names. -/
def delPath (d : Bytes) : Path := (resolve (slash :: d)).path

/-- The root files `orig` without those in `done`. -/
def without (orig : Path → Option Bytes) (done : List Path) (p : Path) : Option Bytes :=
  if p ∈ done then none else orig p

/-- The paths `done` are deleted, and those of them that were files are
recorded. -/
structure Deleting (s₀ : FileSys) (orig : Path → Option Bytes) (done : List Path) (st : Option Node)
    (s : FileSys) : Prop where
  applying : ∃ recs, Applying orig recs s ∧
    ∀ r ∈ recs, s.get r.path = none ∧ r.path ∈ done ∧ orig r.path ≠ none
  root : rootFiles s = without orig done
  stage : ∀ q, stageP <+: q → s.get q = s₀.get q
  state : s.get stateP = st

theorem Deleting.undoable (h : Deleting s₀ orig done st s) : Undoable orig st s :=
  ⟨h.state, h.applying.imp fun _ h => h.1.logged⟩

theorem without_concat (orig : Path → Option Bytes) (done : List Path) (p : Path) :
    without orig (done ++ [p]) = Function.update (without orig done) p none := by
  funext q
  by_cases h : q = p
  · subst h; simp [without]
  · simp [without, h]

/-- A path that is no file needs no deleting. -/
theorem Deleting.skip (h : Deleting s₀ orig done st s)
    (hp : s.data p = none) : Deleting s₀ orig (done ++ [p]) st s := by
  obtain ⟨recs, happ, hgone⟩ := h.applying
  refine ⟨⟨recs, happ, fun r hr => ?_⟩, ?_, h.stage, h.state⟩
  · obtain ⟨h1, h2, h3⟩ := hgone r hr
    exact ⟨h1, mem_append_left _ h2, h3⟩
  rw [without_concat, ← h.root]
  refine (Function.update_eq_self_iff.mpr ?_).symm
  unfold rootFiles
  split
  · exact hp.symm
  · rfl

/-- Deleting a file that is there. -/
theorem deleteTarget_wp (hv : v.shorts = false)
    (h : Deleting s₀ orig done st s) (hpv : ValidPath p) (hout : Outside p) (hnl : ∀ n ∈ p, newline ∉ n)
    (hb : s.get p = some (.file b)) (horig : orig p ≠ none) :
    Sys.WP v (do
        if ← prepareTarget (str p) then
          match ← Sys.unlink (absStr p) with
          | .ok () => pure true
          | .error _ => pure false
        else pure false) s
      (fun ok s' => Undoable orig st s' ∧ (ok = true → Deleting s₀ orig (done ++ [p]) st s'))
      (Midway orig st) := by
  obtain ⟨recs, happ, hgone⟩ := h.applying
  have hne : p ≠ [] := FileSys.ne_nil_of_file hb
  have hfresh : ∀ r ∈ recs, r.path ≠ p := fun r hr e => by
    rw [← e, (hgone r hr).1] at hb
    cases hb
  have ht : Target recs s p := ⟨hpv, hne, hout, hnl, hfresh, fun hn => absurd (hb.symm.trans hn) nofun⟩
  refine WP.seq (prepareTarget_wp hv happ.logged h.state happ.dirs ht) (fun ok s₁ ⟨hu, hp, hok⟩ => ?_)
  cases ok with
  | false => exact ⟨hu, by simp⟩
  | true =>
    obtain ⟨r, hrp, -, hlog, hdirs⟩ := hok rfl
    subst hrp
    refine Sys.WP.call (hu.midway (Quiet.call _).sparesJournal) (fun s2 h2 => ?_)
      fun e _ => ⟨hu, by simp⟩
    obtain ⟨hs2, hn2⟩ := unlink_sem hpv hne h2
    have hpk : Pokes r.path s₁ s2 := hs2.pokes (by simp [hn2])
    have hin : ∀ q, txnP <+: q → s2.get q = s₁.get q := fun q => get_inside (pokes_outside hpk hout)
    have hstage : ∀ q, stageP <+: q → s2.get q = s₀.get q := fun q hq => by
      obtain ⟨hi, hb, hj⟩ := stage_spared hq
      rw [hin q hi, hp.inside q hi hb hj, h.stage q hq]
    have hstate : s2.get stateP = st := by rw [hin _ stateP_inside, hp.state, h.state]
    have hgone2 : ∀ r' ∈ recs ++ [r], s2.get r'.path = none ∧ r'.path ∈ done ++ [r.path] ∧
        orig r'.path ≠ none := by
      intro r' hr'
      rcases mem_append.mp hr' with hr' | hr'
      · obtain ⟨h1, h2, h3⟩ := hgone r' hr'
        refine ⟨?_, mem_append_left _ h2, h3⟩
        rw [hs2 r'.path (ht.fresh r' hr')]
        rcases hp.outside r'.path r'.good.outside with e | ⟨-, -, hd⟩
        · rw [e, h1]
        · exact absurd hd (hlog.clear r' (mem_append_left _ hr')).2
      · rw [mem_singleton.mp hr']
        exact ⟨hn2, by simp, horig⟩
    have happ2 : Applying orig (recs ++ [r]) s2 := happ.next (by simp [hb]) hp.outside hlog hdirs hpk
    have hdel : Deleting s₀ orig (done ++ [r.path]) st s2 := by
      refine ⟨⟨_, happ2, hgone2⟩, ?_, hstage, hstate⟩
      rw [without_concat, ← h.root, ← hp.rootFiles]
      funext q
      by_cases hq : q = r.path
      · subst hq
        rw [Function.update_self, rootFiles_outside hout]
        exact FileSys.data_eq_none.mpr fun b hb => by rw [hn2] at hb; cases hb
      · rw [Function.update_of_ne hq]
        unfold rootFiles
        rw [hs2.data_eq hq]
    exact ⟨hdel.undoable, fun _ => hdel⟩

/-- A safe name at which a file is found has no slash at its end. -/
theorem safeRel_file {rel : Bytes} (h : safeRel rel = true) (h0 : 0 ∉ rel)
    (hf : s.stat (resolve (slash :: rel)) = .ok (.file b)) : ∃ p, ValidPath p ∧ p ≠ [] ∧ rel = str p := by
  obtain ⟨p, hpv, hne, hrel⟩ := safeRel_cases h h0
  refine ⟨p, hpv, hne, hrel.resolve_right fun e => ?_⟩
  have hr : resolve (slash :: rel) = ⟨p, true⟩ := by
    rw [e]; exact resolve_absStr_slash hpv hne
  rw [hr] at hf
  cases (FileSys.stat_ok hf).2 rfl

theorem applyDelete_wp {d : Bytes} (hv : v.shorts = false)
    (h : Deleting s₀ orig done st s) (hd : Outside (delPath d)) (hnl : newline ∉ d) (h0 : 0 ∉ d) :
    Sys.WP v (applyDelete d) s
      (fun ok s' => Undoable orig st s' ∧ (ok = true → Deleting s₀ orig (done ++ [delPath d]) st s'))
      (Midway orig st) := by
  have hfail : Sys.WP v (pure false : Sys Bool) s
      (fun ok s' => Undoable orig st s' ∧ (ok = true → Deleting s₀ orig (done ++ [delPath d]) st s'))
      (Midway orig st) := ⟨h.undoable, by simp⟩
  simp only [applyDelete]
  split
  · exact hfail
  rename_i hcond
  rw [not_or, Bool.not_eq_false] at hcond
  refine Sys.WP.lstat (h.undoable.midway (Quiet.lstat _).sparesJournal) fun res hres => ?_
  rcases res with e | (b | _)
  · refine ⟨h.undoable, fun e' => h.skip ?_⟩
    have he : e = .ENOENT := of_decide_eq_true e'
    subst he
    have hn := FileSys.get_of_stat_enoent (hres.resolve_right fun h => by cases h.2).symm
    exact FileSys.data_eq_none.mpr fun b hb => by rw [delPath, hn] at hb; cases hb
  · have hstat := (hres.resolve_right fun h => by cases h.2).symm
    have hst := FileSys.stat_ok hstat
    obtain ⟨p, hpv, hpne, rfl⟩ := safeRel_file hcond.1 h0 hstat
    have hr : resolve (slash :: str p) = ⟨p, false⟩ := resolve_absStr hpv hpne
    have hpath : delPath (str p) = p := by rw [delPath, hr]
    rw [hr] at hst
    have horig : orig p ≠ none := fun hn => by
      have hroot := congrFun h.root p
      rw [rootFiles_outside (hpath ▸ hd), FileSys.data_eq_some.mpr hst.1] at hroot
      simp [without, hn] at hroot
    have := deleteTarget_wp hv h hpv (hpath ▸ hd) (fun n hn hm => hnl (mem_str_of_mem hn hm)) hst.1
      horig
    rw [hpath]
    exact this
  · exact hfail

/-- The paths that the lines of a delete file name; empty lines name none. -/
def delPaths (lines : List Bytes) : List Path := ((lines.map chomp).filter (· ≠ [])).map delPath

theorem not_mem_chomp (line : Bytes) : newline ∉ chomp line ∧ 0 ∉ chomp line := by
  refine ⟨fun h => ?_, fun h => ?_⟩
  · have := mem_takeWhile_imp h
    simp at this
  · have := mem_takeWhile_imp ((takeWhile_sublist _).subset h)
    simp at this

/-- The loop over the delete file. -/
theorem applyDeletes_wp {lines : List Bytes} (hv : v.shorts = false) (h : Deleting s₀ orig done st s)
    (hl : ∀ line ∈ lines, chomp line ≠ [] → Outside (delPath (chomp line))) :
    Sys.WP v (forLines (fun line => if chomp line = [] then pure true else applyDelete (chomp line)) lines) s
      (fun ok s' => Undoable orig st s' ∧ (ok = true → Deleting s₀ orig (done ++ delPaths lines) st s'))
      (Midway orig st) := by
  induction lines generalizing s done with
  | nil => exact ⟨h.undoable, fun _ => by simpa [delPaths] using h⟩
  | cons line lines ih =>
    have hl' : ∀ l ∈ lines, chomp l ≠ [] → Outside (delPath (chomp l)) := fun l hm =>
      hl l (mem_cons_of_mem _ hm)
    rw [forLines]
    by_cases hc : chomp line = []
    · rw [if_pos hc]
      have : delPaths (line :: lines) = delPaths lines := by simp [delPaths, hc]
      rw [this]
      exact ih h hl'
    · rw [if_neg hc]
      have : delPaths (line :: lines) = delPath (chomp line) :: delPaths lines := by simp [delPaths, hc]
      rw [this]
      refine WP.seq (applyDelete_wp hv h (hl line mem_cons_self hc) (not_mem_chomp line).1
        (not_mem_chomp line).2) (fun ok s₁ h1 => ?_)
      cases ok with
      | false => exact ⟨h1.1, by simp⟩
      | true =>
        have := ih (h1.2 rfl) hl'
        simpa [append_assoc] using this

/-! ## Staged files -/

/-- The root with what is still staged laid over it. -/
def overlay (s : FileSys) (p : Path) : Option Bytes := (s.data (stageP ++ p)).or (rootFiles s p)

/-- Every staged path can be recorded, as long as it is not too long. -/
def StageOk (s : FileSys) : Prop :=
  ∀ p b, s.get (stageP ++ p) = some (.file b) → Short p → Outside p ∧ ∀ n ∈ p, newline ∉ n

/-- Files have left the stage, and nothing has come. -/
def Drains (s s' : FileSys) : Prop :=
  ∀ q, stageP <+: q → s'.get q = s.get q ∨ (∃ b, s.get q = some (.file b)) ∧ s'.get q = none

theorem Drains.refl (s : FileSys) : Drains s s := fun _ _ => .inl rfl

theorem Drains.trans {s'' : FileSys} (h : Drains s s') (h' : Drains s' s'') : Drains s s'' := fun q hq => by
  rcases h' q hq with e' | ⟨⟨b, hb⟩, hn⟩
  · rcases h q hq with e | ⟨hb, hn⟩
    · exact .inl (e'.trans e)
    · exact .inr ⟨hb, e'.trans hn⟩
  · rcases h q hq with e | ⟨-, hn'⟩
    · exact .inr ⟨⟨b, e ▸ hb⟩, hn⟩
    · rw [hn'] at hb; cases hb

/-- What is still staged was staged before. -/
theorem Drains.file_before (h : Drains s s') (hq : stageP <+: q)
    (hb : s'.get q = some (.file b)) : s.get q = some (.file b) := by
  rcases h q hq with e | ⟨-, hn⟩
  · rw [← e, hb]
  · rw [hb] at hn; cases hn

theorem StageOk.drains (h : StageOk s) (hd : Drains s s') : StageOk s' := fun p b hb =>
  h p b (hd.file_before (prefix_append _ _) hb)

/-- Between two staged files: `goal` is what the root will be when all are
moved. -/
structure Staging (orig goal : Path → Option Bytes) (st : Option Node) (s : FileSys) : Prop where
  applying : ∃ recs, Applying orig recs s ∧ Free recs s
  good : StageOk s
  overlay : overlay s = goal
  state : s.get stateP = st

theorem Staging.undoable {goal : Path → Option Bytes} (h : Staging orig goal st s) : Undoable orig st s :=
  ⟨h.state, h.applying.imp fun _ h => h.1.logged⟩

variable {goal : Path → Option Bytes}

theorem stage_ne_outside (hp : Outside p) (q : Path) : stageP ++ q ≠ p := fun e =>
  hp (e ▸ stage_inside q)

/-- What renaming a staged file into place does, path by path. -/
theorem rename_sem (hpv : ValidPath p) (hne : p ≠ [])
    (h : (Call.rename (absStr (stageP ++ p)) (absStr p)).sem s = .ok s₁) :
    ∃ b, s.get (stageP ++ p) = some (.file b) ∧ s.get p ≠ some .dir ∧
      ∀ q, s₁.get q = if q = p then some (.file b) else if q = stageP ++ p then none else s.get q := by
  have hr : s.rename ⟨stageP ++ p, false⟩ ⟨p, false⟩ = .ok s₁ := by
    have h : s.rename (resolve (absStr (stageP ++ p))) (resolve (absStr p)) = .ok s₁ := h
    rwa [resolve_absStr (stageP_valid.append hpv) (by simp [hne]), resolve_absStr hpv hne] at h
  exact FileSys.rename_ok hr

/-- Moving a staged file whose target is prepared. -/
theorem Staging.moved {s2 : FileSys} (h : Staging orig goal st s)
    (happ : Applying orig recs s) (hfree : Free recs s) (hb : s.get (stageP ++ r.path) = some (.file b))
    (hp : Prepared r.path s s₁) (hlog : Logged orig (recs ++ [r]) [] s₁)
    (hdirs : ∀ q ∈ ancestors r.path, s₁.get q = some .dir)
    (hg : ∀ q, s2.get q = if q = r.path then some (.file b) else if q = stageP ++ r.path then none else s₁.get q) :
    Staging orig goal st s2 ∧ Drains s s2 ∧ s2.get (stageP ++ r.path) = none := by
  have hout := r.good.outside
  have hne : ∀ q, stageP ++ q ≠ r.path := stage_ne_outside hout
  have hst : ∀ q, stageP <+: q → s₁.get q = s.get q := fun q hq =>
    have ⟨hi, hb, hj⟩ := stage_spared hq
    hp.inside q hi hb hj
  have hself : s2.get r.path = some (.file b) := by rw [hg, if_pos rfl]
  have hgone : s2.get (stageP ++ r.path) = none := by rw [hg, if_neg (hne _), if_pos rfl]
  have hother : ∀ q, q ≠ r.path → q ≠ stageP ++ r.path → s2.get q = s₁.get q := fun q h1 h2 => by
    rw [hg, if_neg h1, if_neg h2]
  have hdrain : Drains s s2 := fun q hq => by
    by_cases e : q = stageP ++ r.path
    · subst e; exact .inr ⟨⟨b, hb⟩, hgone⟩
    · refine .inl ((hother q ?_ e).trans (hst q hq))
      exact fun e => hout (e ▸ (prefix_append _ _).trans hq)
  -- the stage without the file, and then the root with it
  have hb1 : s₁.get (stageP ++ r.path) = some (.file b) := (hst _ (prefix_append _ _)).trans hb
  have herase := FileSys.get_erase (FileSys.ne_nil_of_file hb1) (FileSys.children_of_file hb1)
  have hs1' : SameBut (stageP <+: ·) s₁ (s₁.erase (stageP ++ r.path)) := fun q hq => by
    have hqe : q ≠ stageP ++ r.path := fun e => hq (e ▸ prefix_append _ _)
    rw [herase, if_neg hqe]
  have hpoke : Pokes r.path (s₁.erase (stageP ++ r.path)) s2 := by
    refine .of_get (fun q hq => ?_) (by simp [hself])
    rw [hg, if_neg hq, herase]
  have hlog' : Logged orig (recs ++ [r]) [] (s₁.erase (stageP ++ r.path)) := by
    refine hlog.of_inside (hs1'.mono fun q hq => (stage_spared hq).1) ?_ fun r' _ _ => ?_
    · rw [hs1' _ (by decide)]; exact hlog.journal
    · exact hs1'.data_eq fun h => (stage_spared h).2.1 (prefix_append _ _)
  have hnext : Applying orig (recs ++ [r]) s2 := by
    refine happ.next (fun hd => ?_) (fun q hq => ?_) hlog' (fun q hq => ?_) hpoke
    · exact (hlog.clear r (by simp)).2 ((hp.get_self hout).trans hd)
    · rw [hs1' q fun h => hq (stage_spared h).1]; exact hp.outside q hq
    · rw [hs1' q fun h => outside_above hout (mem_ancestors.mp hq).1 (stage_spared h).1]
      exact hdirs q hq
  have hfree2 : Free (recs ++ [r]) s2 := fun p' b' hp' hf r' hr' => by
    have hs := hdrain.file_before (prefix_append _ _) hp'
    rcases mem_append.mp hr' with hr' | hr'
    · refine ⟨(hfree p' b' hs hf r' hr').1, fun ha => ?_⟩
      by_cases e : r'.path = r.path
      · rw [e, hself]; nofun
      · rw [hother _ e (stage_ne_outside r'.good.outside _).symm]
        rcases hp.outside r'.path r'.good.outside with e' | ⟨-, -, hd⟩
        · rw [e']; exact (hfree p' b' hs hf r' hr').2 ha
        · rw [hd]; nofun
    · rw [mem_singleton] at hr'
      subst hr'
      refine ⟨fun e => ?_, fun _ => by rw [hself]; nofun⟩
      rw [← e, hgone] at hp'
      cases hp'
  refine ⟨⟨⟨_, hnext, hfree2⟩, h.good.drains hdrain, ?_, ?_⟩, hdrain, hgone⟩
  · rw [← h.overlay]
    funext q
    by_cases hq : q = r.path
    · subst hq
      rw [Herald.overlay, Herald.overlay, rootFiles_outside hout, FileSys.data_eq_some.mpr hself,
        FileSys.data_eq_some.mpr hb, FileSys.data_eq_none.mpr fun b hb => by rw [hgone] at hb; cases hb]
      rfl
    · have h1 : s2.data (stageP ++ q) = s.data (stageP ++ q) := by
        refine FileSys.data_congr ((hother _ (hne q) fun e => hq (append_cancel_left e)).trans ?_)
        exact hst _ (prefix_append _ _)
      have h2 : rootFiles s2 q = rootFiles s q := by
        rw [← hp.rootFiles]
        unfold rootFiles
        split
        · exact FileSys.data_congr (hother q hq (stage_ne_outside ‹_› _).symm)
        · rfl
      rw [Herald.overlay, Herald.overlay, h1, h2]
  · rw [hother stateP (fun e => hout (e ▸ stateP_inside))
      (fun e => state_not_staged (e ▸ prefix_append _ _)), hp.state, h.state]

theorem moveTarget_wp (hv : v.shorts = false) (h : Staging orig goal st s) (hne : p ≠ [])
    (hb : s.get (stageP ++ p) = some (.file b)) : Sys.WP v (moveTarget (absStr (stageP ++ p)) (str p)) s
      (fun ok s' => Undoable orig st s' ∧
        (ok = true → Staging orig goal st s' ∧ Drains s s' ∧ s'.get (stageP ++ p) = none)) (Midway orig st) := by
  obtain ⟨recs, happ, hfree⟩ := h.applying
  have hpv : ValidPath p := (FileSys.get_valid (by rw [hb]; nofun)).right
  by_cases hf : Short p
  case neg =>
    rw [moveTarget, prepareTarget_long hne hf]
    exact ⟨h.undoable, by simp⟩
  obtain ⟨hout, hnl⟩ := h.good p b hb hf
  have ht : Target recs s p := ⟨hpv, hne, hout, hnl, fun r hr => (hfree p b hb hf r hr).1,
    fun _ r hr => (hfree p b hb hf r hr).2⟩
  refine WP.seq (prepareTarget_wp hv happ.logged h.state happ.dirs ht) (fun ok s₁ ⟨hu, hp, hok⟩ => ?_)
  cases ok with
  | false => exact ⟨hu, by simp⟩
  | true =>
    obtain ⟨r, hrp, -, hlog, hdirs⟩ := hok rfl
    subst hrp
    change Sys.WP v (if (slash :: str r.path).length ≥ txnPathMax then pure false else _) s₁ _ _
    split
    · exact ⟨hu, by simp⟩
    · refine Sys.WP.call (hu.midway (Quiet.call _).sparesJournal) (fun s2 h2 => ?_)
        fun e _ => ⟨hu, by simp⟩
      obtain ⟨b', hb', -, hg⟩ := rename_sem hpv hne h2
      have ⟨hi, hnb, hj⟩ := stage_spared (prefix_append stageP r.path)
      rw [hp.inside _ hi hnb hj, hb] at hb'
      cases hb'
      have hm := h.moved happ hfree hb hp hlog hdirs hg
      exact ⟨hm.1.undoable, fun _ => hm⟩

/-! ## The stage directory -/

theorem relJoin_str (hd : ValidPath d) (n : Name) : relJoin (str d) n = str (d ++ [n]) := by
  by_cases h : d = []
  · subst h; simp [relJoin, str]
  · rw [relJoin, if_neg (str_ne_nil hd h), str_append h (by simp), str_singleton]

/-- The loop over the entries of one directory keeps what moving a staged file keeps. -/
theorem applyStageEntries_keeps {I : FileSys → Prop} {C : Op → FileSys → Prop} {ad : Bytes → Bytes → Sys Bool}
    {ns : List Name} (hlstat : ∀ path s, I s → C (.lstat path) s)
    (hmove : ∀ p b s, ValidPath p → p ≠ [] → s.get (stageP ++ p) = some (.file b) → I s →
      Sys.WP v (moveTarget (absStr (stageP ++ p)) (str p)) s (fun _ => I) C)
    (hd : ValidPath d) (hns : ∀ n ∈ ns, ValidName n)
    (had : ∀ n ∈ ns, ∀ s, I s → Sys.WP v (ad (absStr (stageP ++ (d ++ [n]))) (str (d ++ [n]))) s (fun _ => I) C)
    (h : I s) : Sys.WP v (applyStageEntries ad (absStr (stageP ++ d)) (str d) ns) s (fun _ => I) C := by
  induction ns generalizing s with
  | nil => exact h
  | cons n ns ih =>
    have hcv : ValidPath (d ++ [n]) := hd.append fun m hm => mem_singleton.mp hm ▸ hns n mem_cons_self
    have hsrc : absStr (stageP ++ d) ++ slash :: n = absStr (stageP ++ (d ++ [n])) := by
      rw [absStr_child (by simp [stageP]), append_assoc]
    have hgo : ∀ (ok : Bool) s₁, I s₁ →
        Sys.WP v (if ok = true then applyStageEntries ad (absStr (stageP ++ d)) (str d) ns else pure false) s₁
          (fun _ => I) C := fun ok s₁ h1 => by
      cases ok with
      | false => exact h1
      | true => exact ih (fun m hm => hns m (mem_cons_of_mem _ hm)) (fun m hm => had m (mem_cons_of_mem _ hm)) h1
    simp only [applyStageEntries, hsrc, relJoin_str hd]
    split
    · exact h
    refine Sys.WP.lstat (hlstat _ _ h) fun r hr => ?_
    rcases r with e | (b | _)
    · exact h
    · have hst := FileSys.stat_ok (hr.resolve_right fun h => by cases h.2).symm
      rw [resolve_absStr (stageP_valid.append hcv) (by simp [stageP])] at hst
      exact WP.seq (hmove _ b s hcv (by simp) hst.1 h) hgo
    · exact WP.seq (had n mem_cons_self s h) hgo

theorem applyStageDir_keeps {I : FileSys → Prop} {C : Op → FileSys → Prop} {fuel : Nat}
    (hlstat : ∀ path s, I s → C (.lstat path) s) (hreaddir : ∀ path s, I s → C (.readdir path) s)
    (hmove : ∀ p b s, ValidPath p → p ≠ [] → s.get (stageP ++ p) = some (.file b) → I s →
      Sys.WP v (moveTarget (absStr (stageP ++ p)) (str p)) s (fun _ => I) C)
    (hd : ValidPath d) (h : I s) : Sys.WP v (applyStageDir fuel (absStr (stageP ++ d)) (str d)) s (fun _ => I) C := by
  induction fuel generalizing s d with
  | zero => exact h
  | succ fuel ih =>
    refine Sys.WP.readdir (hreaddir _ _ h) (fun ns hdir hns => ?_) fun e _ => h
    have hvalid : ∀ n ∈ ns, ValidName n := fun n hn =>
      FileSys.get_valid (FileSys.mem_children.mp (hns.mem_iff.mp hn)) n (by simp)
    refine applyStageEntries_keeps hlstat hmove hd hvalid (fun n hn s h => ih ?_ h) h
    exact hd.append fun m hm => mem_singleton.mp hm ▸ hvalid n hn

/-- What applying the directory `d` of the stage does. -/
def StageApplied (orig goal : Path → Option Bytes) (st : Option Node) (d : Path) (s : FileSys) (ok : Bool)
    (s' : FileSys) : Prop :=
  Undoable orig st s' ∧ (ok = true → Staging orig goal st s' ∧ Drains s s' ∧
    ∀ q b, s'.get (stageP ++ (d ++ q)) ≠ some (.file b))

/-- The loop over the entries of one directory, given how directories in it are
applied. -/
theorem applyStageEntries_wp {ad : Bytes → Bytes → Sys Bool} {ns : List Name}
    (hv : v.shorts = false) (hd : ValidPath d) (hns : ∀ n ∈ ns, ValidName n)
    (had : ∀ n ∈ ns, ∀ s, Staging orig goal st s → Sys.WP v (ad (absStr (stageP ++ (d ++ [n]))) (str (d ++ [n]))) s
        (StageApplied orig goal st (d ++ [n]) s) (Midway orig st)) (h : Staging orig goal st s) :
    Sys.WP v (applyStageEntries ad (absStr (stageP ++ d)) (str d) ns) s
      (fun ok s' => Undoable orig st s' ∧ (ok = true → Staging orig goal st s' ∧ Drains s s' ∧
        ∀ n ∈ ns, ∀ q b, s'.get (stageP ++ (d ++ n :: q)) ≠ some (.file b))) (Midway orig st) := by
  induction ns generalizing s with
  | nil => exact ⟨h.undoable, fun _ => ⟨h, .refl s, forall_mem_nil _⟩⟩
  | cons n ns ih =>
    have hn := hns n mem_cons_self
    have hcv : ValidPath (d ++ [n]) := hd.append fun m hm => mem_singleton.mp hm ▸ hn
    have hsrc : absStr (stageP ++ d) ++ slash :: n = absStr (stageP ++ (d ++ [n])) := by
      rw [absStr_child (by simp [stageP]), append_assoc]
    have hfail : ∀ s', Undoable orig st s' → Sys.WP v (pure false : Sys Bool) s'
        (fun ok s' => Undoable orig st s' ∧ (ok = true → Staging orig goal st s' ∧ Drains s s' ∧
          ∀ m ∈ n :: ns, ∀ q b, s'.get (stageP ++ (d ++ m :: q)) ≠ some (.file b)))
        (Midway orig st) := fun s' hu => ⟨hu, by simp⟩
    -- the rest of the loop, once there is no file left at or below the first entry
    have hgo : ∀ s₁, Staging orig goal st s₁ → Drains s s₁ →
        (∀ q b, s₁.get (stageP ++ (d ++ n :: q)) ≠ some (.file b)) →
        Sys.WP v (applyStageEntries ad (absStr (stageP ++ d)) (str d) ns) s₁
          (fun ok s' => Undoable orig st s' ∧ (ok = true → Staging orig goal st s' ∧ Drains s s' ∧
            ∀ m ∈ n :: ns, ∀ q b, s'.get (stageP ++ (d ++ m :: q)) ≠ some (.file b)))
          (Midway orig st) := by
      intro s₁ h1 hdr hnone
      refine WP.post (ih (fun m hm => hns m (mem_cons_of_mem _ hm))
        (fun m hm => had m (mem_cons_of_mem _ hm)) h1) (fun ok s' ⟨hu, hok⟩ => ⟨hu, fun e => ?_⟩)
      obtain ⟨hs', hdr', hrest⟩ := hok e
      refine ⟨hs', hdr.trans hdr', fun m hm q b hb => ?_⟩
      rcases mem_cons.mp hm with rfl | hm
      · exact hnone q b (hdr'.file_before (prefix_append _ _) hb)
      · exact hrest m hm q b hb
    simp only [applyStageEntries, hsrc, relJoin_str hd]
    split
    · exact hfail s h.undoable
    refine Sys.WP.lstat (h.undoable.midway (Quiet.lstat _).sparesJournal) fun r hr => ?_
    rw [resolve_absStr (stageP_valid.append hcv) (by simp [stageP])] at hr
    rcases r with e | (b | _)
    · exact hfail s h.undoable
    · have hb := (FileSys.stat_ok (hr.resolve_right fun h => by cases h.2).symm).1
      refine WP.seq (moveTarget_wp hv h (by simp) hb) (fun ok s₁ ⟨hu, hok⟩ => ?_)
      cases ok with
      | false => exact hfail s₁ hu
      | true =>
        obtain ⟨h1, hdr, hgone⟩ := hok rfl
        refine hgo s₁ h1 hdr fun q b hb => ?_
        rw [show stageP ++ (d ++ n :: q) = (stageP ++ (d ++ [n])) ++ q by simp] at hb
        by_cases hq : q = []
        · subst hq; rw [append_nil, hgone] at hb; cases hb
        · rw [FileSys.get_below_none hgone (ancestors_append_left hq)] at hb; cases hb
    · refine WP.seq (had n mem_cons_self s h) (fun ok s₁ ⟨hu, hok⟩ => ?_)
      cases ok with
      | false => exact hfail s₁ hu
      | true =>
        obtain ⟨h1, hdr, hnone⟩ := hok rfl
        refine hgo s₁ h1 hdr fun q b => ?_
        have := hnone q b
        simpa using this

/-- `apply_stage_dir`: on success no file is left below the directory. -/
theorem applyStageDir_wp {fuel : Nat} (hv : v.shorts = false) (hd : ValidPath d) (h : Staging orig goal st s) :
    Sys.WP v (applyStageDir fuel (absStr (stageP ++ d)) (str d)) s (StageApplied orig goal st d s)
      (Midway orig st) := by
  induction fuel generalizing s d with
  | zero => exact ⟨h.undoable, by simp⟩
  | succ fuel ih =>
    have hr : resolve (absStr (stageP ++ d)) = ⟨stageP ++ d, false⟩ :=
      resolve_absStr (stageP_valid.append hd) (by simp [stageP])
    refine Sys.WP.readdir (h.undoable.midway (Quiet.readdir _).sparesJournal) (fun ns hdir hns => ?_)
      fun e _ => ⟨h.undoable, by simp⟩
    rw [hr] at hdir hns
    have hvalid : ∀ n ∈ ns, ValidName n := fun n hn =>
      FileSys.get_valid (FileSys.mem_children.mp (hns.mem_iff.mp hn)) n (by simp)
    have hcv : ∀ n ∈ ns, ValidPath (d ++ [n]) := fun n hn =>
      hd.append fun m hm => mem_singleton.mp hm ▸ hvalid n hn
    refine WP.post (applyStageEntries_wp hv hd hvalid (fun n hn s hs => ih (hcv n hn) hs) h)
      (fun ok s' ⟨hu, hok⟩ => ⟨hu, fun e => ?_⟩)
    obtain ⟨hs', hdr, hnone⟩ := hok e
    refine ⟨hs', hdr, fun q b hb => ?_⟩
    have hbefore := hdr.file_before (prefix_append _ _) hb
    cases q with
    | nil => rw [append_nil, hdir] at hbefore; cases hbefore
    | cons n q =>
      -- the first component is one of the names that were listed
      refine hnone n (hns.mem_iff.mpr (FileSys.mem_children.mpr fun hn => ?_)) q b hb
      rw [show stageP ++ (d ++ n :: q) = (stageP ++ d ++ [n]) ++ q by simp] at hbefore
      by_cases hq : q = []
      · subst hq; rw [append_nil, hn] at hbefore; cases hbefore
      · rw [FileSys.get_below_none hn (ancestors_append_left hq)] at hbefore; cases hbefore

end Lorica.Proof.Herald

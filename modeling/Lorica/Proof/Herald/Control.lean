import Lorica.Proof.Herald.Files

/-!
# herald: the transaction directory and its control files

The paths of the transaction directory, and what the helpers that write the
state file and the journal do. `rootFiles` are the regular files outside of the
transaction directory: the files a transaction is about.

`writeState_wp`: the state file says the old or the new state at every moment.
-/

namespace Lorica.Proof.Herald

open Lorica.Impl.Herald Posix List

variable {v : Env} {s s' : FileSys} {p q : Path}

/-! ## Paths -/

def txnP : Path := [ascii "etc", ascii "aegis", ascii "herald", ascii "transaction"]
def stageP : Path := txnP ++ [ascii "stage"]
def backupP : Path := txnP ++ [ascii "backup"]
def stateP : Path := txnP ++ [ascii "state"]
def stateTmpP : Path := txnP ++ [ascii "state.tmp"]
def journalP : Path := txnP ++ [ascii "journal"]
def deleteP : Path := txnP ++ [ascii "delete"]
def pendingP : Path := [ascii "etc", ascii "aegis", ascii "update", ascii "pending"]

theorem heraldTxnStage_eq : heraldTxnStage = absStr stageP := by decide
theorem txnBackup_eq : txnBackup = absStr backupP := by decide
theorem txnState_eq : txnState = absStr stateP := by decide
theorem stateTmp_eq : stateTmp = absStr stateTmpP := by decide
theorem txnJournal_eq : txnJournal = absStr journalP := by decide
theorem txnDelete_eq : txnDelete = absStr deleteP := by decide

theorem txnP_valid : ValidPath txnP := by decide
theorem stageP_valid : ValidPath stageP := by decide
theorem backupP_valid : ValidPath backupP := by decide
theorem stateP_valid : ValidPath stateP := by decide
theorem stateTmpP_valid : ValidPath stateTmpP := by decide
theorem journalP_valid : ValidPath journalP := by decide
theorem deleteP_valid : ValidPath deleteP := by decide
theorem pendingP_valid : ValidPath pendingP := by decide

theorem journalP_inside : txnP <+: journalP := prefix_append _ _
theorem stateP_inside : txnP <+: stateP := prefix_append _ _
theorem deleteP_inside : txnP <+: deleteP := prefix_append _ _
theorem stage_inside (p : Path) : txnP <+: stageP ++ p :=
  (prefix_append _ _).trans (prefix_append _ _)
theorem backup_inside (p : Path) : txnP <+: backupP ++ p :=
  (prefix_append _ _).trans (prefix_append _ _)

/-- Different entries of the transaction directory have nothing in common. -/
theorem child_ne {n m : Name} (h : n ≠ m) (p q : Path) : txnP ++ [n] ++ p ≠ txnP ++ [m] ++ q := fun e => by
  rw [append_assoc, append_assoc, append_cancel_left_eq] at e
  exact h (cons.inj e).1

theorem journalP_ne_backup (p : Path) : journalP ≠ backupP ++ p := child_ne (by decide) [] p

/-- Paths that differ in a component are not below each other. -/
theorem not_prefix_of_prefix {a b : Path} (h : a <+: q) (hl : a.length = b.length) (hne : a ≠ b) :
    ¬ b <+: q := fun h' => by
  rcases prefix_or_prefix_of_prefix h h' with hp | hp
  · exact hne (hp.eq_of_length hl)
  · exact hne (hp.eq_of_length hl.symm).symm

theorem stage_spared (h : stageP <+: q) : txnP <+: q ∧ ¬ backupP <+: q ∧ q ≠ journalP := by
  refine ⟨(prefix_append _ _).trans h, not_prefix_of_prefix h rfl (by decide), ?_⟩
  rintro rfl
  exact absurd h (by decide)

theorem state_not_staged : ¬ stageP <+: stateP := by decide

/-! ## The root files -/

/-- A path that is not in the transaction directory. -/
def Outside (p : Path) : Prop := ¬ txnP <+: p

instance (p : Path) : Decidable (Outside p) := inferInstanceAs (Decidable (¬ _))

/-- The regular files of the root, without those of the transaction. -/
def rootFiles (s : FileSys) (p : Path) : Option Bytes := if Outside p then s.data p else none

theorem rootFiles_outside (h : Outside p) : rootFiles s p = s.data p := if_pos h

theorem rootFiles_inside (h : ¬ Outside p) : rootFiles s p = none := if_neg h

theorem rootFiles_congr (h : ∀ p, Outside p → s'.data p = s.data p) : rootFiles s' = rootFiles s := by
  funext p
  unfold rootFiles
  split
  · exact h p ‹_›
  · rfl

theorem rootFiles_sameBut {T : Path → Prop} (h : SameBut T s s') (hT : ∀ q, T q → txnP <+: q) :
    rootFiles s' = rootFiles s :=
  rootFiles_congr fun q hq => h.data_eq fun hTq => hq (hT q hTq)

/-- Making directories changes no file. -/
theorem rootFiles_makes (h : Makes p s s') : rootFiles s' = rootFiles s := by
  refine rootFiles_congr fun q _ => ?_
  rcases h q with e | ⟨-, hn, hd⟩
  · exact FileSys.data_congr e
  · simp only [FileSys.data, hn, hd]

theorem outside_above (hp : Outside p) (h : q <+: p) : Outside q := fun ht => hp (ht.trans h)

/-- A poke outside of the transaction directory changes nothing in it. -/
theorem pokes_outside (h : Pokes p s s') (hp : Outside p) : SameBut Outside s s' := fun _ hq =>
  have hq := not_not.mp hq
  h.get_eq (fun e => hp (e ▸ hq)) fun ha => hp (hq.trans (mem_ancestors.mp ha).1)

theorem get_inside (h : SameBut Outside s s') (hq : txnP <+: q) : s'.get q = s.get q := h q (not_not.mpr hq)

/-- An operation that does not write to the journal. -/
def SparesJournal (o : Op) : Prop := ∀ bs, o ≠ .write txnJournal bs

theorem Quiet.sparesJournal {o : Op} (h : Quiet o) : SparesJournal o := h txnJournal

theorem WritesTo.sparesJournal {o : Op} (h : WritesTo p o) (hv : ValidPath p) (hne : p ≠ journalP) :
    SparesJournal o := fun bs e => by
  have := h _ bs e
  rw [txnJournal_eq] at this
  exact hne (str_injective hv journalP_valid (cons.inj this).2.symm)

/-! ## Writing a line -/

/-- One write: all of it, or, when it reports a failure, what a short write left. -/
theorem writeFull_wp {b bs : Bytes} (hv : ValidPath p) (h : s.get p = some (.file b)) :
    Sys.WP v (writeFull (absStr p) bs) s
      (fun ok s' => SameBut (· = p) s s' ∧ ∃ w ≤ bs.length, s'.get p = some (.file (b ++ bs.take w)) ∧
        (ok = true → w = bs.length) ∧ (ok = false → v.shorts = false → w = 0))
      (fun o s' => o = .write (absStr p) bs ∧ s' = s) := by
  refine Sys.WP.write ⟨rfl, rfl⟩ (fun w hw _ hsh => ?_) fun _ => ?_
  · obtain ⟨hwr, hp⟩ := append_writes (path_absStr hv h) h (bs.take w)
    refine ⟨hwr.1, w, hw, hp, of_decide_eq_true, fun e hs => ?_⟩
    have hne : w ≠ bs.length := of_decide_eq_false e
    rcases hsh with hsh | hsh
    · exact absurd hsh hne
    · rw [hs] at hsh; cases hsh
  · exact ⟨.refl _ s, 0, Nat.zero_le _, by simpa using h, by simp, fun _ _ => rfl⟩

theorem writeLine_wp {bs : Bytes} (hv : ValidPath p) (h : s.get p = some (.file [])) :
    Sys.WP v (writeLine (absStr p) bs) s
      (fun ok s' => Writes p s s' ∧ (ok = true → s'.get p = some (.file (bs ++ [newline]))))
      (fun o s' => Writes p s s' ∧ WritesTo p o) := by
  refine WP.bind (writeFull_wp hv h) (fun ok s1 ⟨hs1, w, _, hw, hok, _⟩ => ?_)
    fun o s' ⟨ho, hs⟩ => by subst ho hs; exact ⟨.refl h, .write bs⟩
  have hw1 : Writes p s s1 := ⟨hs1, _, hw⟩
  cases ok with
  | false => exact ⟨hw1, by simp⟩
  | true =>
    rw [hok rfl, nil_append] at hw
    refine WP.bind (writeFull_wp hv hw) (fun ok s2 ⟨hs2, w2, _, hg2, hok2, _⟩ => ?_)
      fun o s' ⟨ho, hs⟩ => by subst ho hs; exact ⟨hw1, .write _⟩
    have hw2 : Writes p s s2 := hw1.trans ⟨hs2, _, hg2⟩
    cases ok with
    | false => exact ⟨hw2, by simp⟩
    | true =>
      refine ⟨⟨hw2, (Quiet.fsync _).writesTo⟩, fun ch _ => ⟨hw2, fun _ => ?_⟩⟩
      rw [hok2 rfl, take_length] at hg2
      exact hg2

/-- `open` with `O_TRUNC`, `fsync`, `close`. -/
theorem createEmpty_wp (hv : ValidPath p) (hne : p ≠ []) : Sys.WP v (createEmpty (absStr p)) s
      (fun ok s' => SameBut (· = p) s s' ∧ (s' = s ∨ s'.get p = some (.file [])) ∧
        (ok = true → s'.get p = some (.file [])))
      (fun _ s' => SameBut (· = p) s s' ∧ (s' = s ∨ s'.get p = some (.file []))) := by
  refine Sys.WP.call ⟨.refl _ s, .inl rfl⟩ (fun s1 h1 => ?_) fun e _ => ?_
  · obtain ⟨hw, hp⟩ := openTrunc_writes hv hne h1
    refine Sys.WP.fsync ⟨hw.1, .inr hp⟩ fun ok _ => ?_
    cases ok with
    | false => exact ⟨hw.1, .inr hp, by simp⟩
    | true => exact ⟨⟨hw.1, .inr hp⟩, fun _ _ => ⟨hw.1, .inr hp, fun _ => hp⟩⟩
  · exact ⟨.refl _ s, .inl rfl, by simp⟩

/-! ## The state file -/

/-- `mkdir_p` makes its path and the directories above it: those above any `n`
in it. -/
theorem mkdirP_eq (hv : ValidPath p) (hne : p ≠ []) (hl : (absStr p).length < txnPathMax) (n : Name) :
    mkdirP (absStr p) = mkdirAll ((ancestors (p ++ [n])).tail.map absStr) := by
  have h : (ancestors p ++ [p]).tail = (ancestors p).tail ++ [p] := by
    obtain ⟨m, r, rfl⟩ := exists_cons_of_ne_nil hne
    simp [ancestors]
  rw [mkdirP, if_neg (by omega), slashCuts_absStr hv hne, ancestors_concat, h, map_append]
  rfl

theorem mkdirP_wp {n : Name} (hv : ValidPath p) (hne : p ≠ []) (hl : (absStr p).length < txnPathMax)
    (hn : ValidName n) : Sys.WP v (mkdirP (absStr p)) s (fun ok s' => Makes (p ++ [n]) s s' ∧
        (ok = true → Clear s (p ++ [n]) → s'.get p = some .dir) ∧
        (v.faults = false → Clear s (p ++ [n]) → ok = true))
      (fun o s' => Makes (p ++ [n]) s s' ∧ WritesTo (p ++ [n]) o) := by
  rw [mkdirP_eq hv hne hl n]
  refine WP.post (mkdirAll_wp (hv.append fun m hm => mem_singleton.mp hm ▸ hn) (prefix_refl _))
    (fun ok s' ⟨hm, hd, hnf⟩ => ⟨hm, fun h hc => ?_, hnf⟩)
  exact hd h hc p (ancestors_append_left (by simp))

/-- The files that `write_state` writes. -/
def StateFile (q : Path) : Prop := q = stateP ∨ q = stateTmpP

instance (q : Path) : Decidable (StateFile q) := inferInstanceAs (Decidable (_ ∨ _))

theorem not_stateFile_backup (p : Path) : ¬ StateFile (backupP ++ p) := by
  rintro (h | h)
  · exact child_ne (by decide) p [] h
  · exact child_ne (by decide) p [] h

theorem StateFile.inside (h : StateFile q) : txnP <+: q := by
  rcases h with rfl | rfl <;> exact prefix_append _ _

/-- What a state file holds. -/
def stateBytes (state : Bytes) : Bytes := state ++ [newline]

/-- Everything but the state file is as in `s`, and that says what it said in `s`
or `state`, the new one if `ok`. -/
structure StateWritten (state : Bytes) (s : FileSys) (ok : Bool) (s' : FileSys) : Prop where
  same : SameBut StateFile s s'
  state : s'.get stateP = if ok = true then some (.file (stateBytes state)) else s.get stateP

variable {state : Bytes}

theorem StateWritten.of_tmp (h : SameBut (· = stateTmpP) s s') : StateWritten state s false s' :=
  ⟨h.mono fun _ => .inr, h _ (by decide)⟩

theorem writeStateTmp_wp (h : s.get stateTmpP = some (.file [])) : Sys.WP v (writeStateTmp state) s
      (fun ok s' => SameBut (· = stateTmpP) s s' ∧ (ok = true → s'.get stateTmpP = some (.file (stateBytes state))))
      (fun o s' => SameBut (· = stateTmpP) s s' ∧ WritesTo stateTmpP o) := by
  refine WP.bind (writeLine_wp stateTmpP_valid h) (fun ok s1 ⟨hw, hok⟩ => ?_) fun o s' ⟨hw, ho⟩ => ⟨hw.1, ho⟩
  refine Sys.WP.close ⟨hw.1, (Quiet.close _).writesTo⟩ fun closed _ => ⟨hw.1, fun h => ?_⟩
  exact hok (Bool.and_eq_true_iff.mp h).1

theorem dropTmp_wp {s1 : FileSys} (h : SameBut (· = stateTmpP) s s1) :
    Sys.WP v (do let _ ← Sys.unlink stateTmp; pure false) s1 (StateWritten state s)
      (fun o s' => WritesTo stateTmpP o ∧ ∃ ok, StateWritten state s ok s') := by
  refine Sys.WP.call ⟨(Quiet.call _).writesTo, false, .of_tmp h⟩ (fun s2 h2 => ?_) fun e _ => .of_tmp h
  exact .of_tmp (h.trans (unlink_sem stateTmpP_valid (by decide) h2).1)

/-- `write_state` once its directory is there. -/
theorem writeStateIn_wp :
    Sys.WP v (do
        match ← Sys.openTrunc stateTmp with
        | .error _ => pure false
        | .ok () =>
          if ← writeStateTmp state then
            match ← Sys.rename stateTmp txnState with
            | .ok () => do
              Sys.sync
              pure true
            | .error _ => do
              let _ ← Sys.unlink stateTmp
              pure false
          else do
            let _ ← Sys.unlink stateTmp
            pure false) s (StateWritten state s)
      (fun o s' => WritesTo stateTmpP o ∧ ∃ ok, StateWritten state s ok s') := by
  have h1 : SameBut (· = stateTmpP) s s := .refl _ s
  refine Sys.WP.call ⟨(Quiet.call _).writesTo, false, .of_tmp h1⟩ (fun s2 h2 => ?_) fun e _ => .of_tmp h1
  obtain ⟨hw2, hp2⟩ := openTrunc_writes stateTmpP_valid (by decide) h2
  refine WP.bind (writeStateTmp_wp hp2) (fun ok s3 ⟨hs3, hok⟩ => ?_) fun o s' ⟨hs, ho⟩ =>
    ⟨ho, false, .of_tmp (hw2.1.trans hs)⟩
  have h3 := hw2.1.trans hs3
  cases ok with
  | false => exact dropTmp_wp h3
  | true =>
    refine Sys.WP.call ⟨(Quiet.call _).writesTo, false, .of_tmp h3⟩ (fun s4 h4 => ?_) fun e _ => dropTmp_wp h3
    -- the rename is the moment the state changes
    have hr : s3.rename ⟨stateTmpP, false⟩ ⟨stateP, false⟩ = .ok s4 := by
      have : s3.rename (resolve stateTmp) (resolve txnState) = .ok s4 := h4
      rwa [stateTmp_eq, txnState_eq, resolve_absStr stateTmpP_valid (by decide),
        resolve_absStr stateP_valid (by decide)] at this
    obtain ⟨b, hb, -, hg⟩ := FileSys.rename_ok hr
    rw [hok rfl] at hb
    have hfin : StateWritten state s true s4 := by
      refine ⟨fun q hq => ?_, ?_⟩
      · simp only [StateFile, not_or] at hq
        rw [hg, if_neg hq.1, if_neg hq.2]
        exact h3 q hq.2
      · rw [hg]
        simp only [ite_true, ← hb]
    exact Sys.WP.sync ⟨(Quiet.sync).writesTo, true, hfin⟩ hfin

/-- `write_state`: it may make the transaction directory; then the state file
says the old or the new state at every moment, and the new one if and only if it
succeeds. -/
theorem writeState_makes_wp :
    Sys.WP v (writeState state) s (fun ok s' => ∃ s1, Makes stateTmpP s s1 ∧ StateWritten state s1 ok s')
      (fun o s' => WritesTo stateTmpP o ∧ ∃ s1, Makes stateTmpP s s1 ∧ ∃ ok, StateWritten state s1 ok s') := by
  refine WP.bind (mkdirP_wp (n := ascii "state.tmp") txnP_valid (by decide) (by decide)
    (by decide)) (fun ok s1 ⟨hm, _, _⟩ => ?_) fun o s' ⟨hm, ho⟩ =>
      ⟨ho, s', hm, false, .of_tmp (.refl _ s')⟩
  cases ok with
  | false => exact ⟨s1, hm, .of_tmp (.refl _ s1)⟩
  | true =>
    exact WP.mono writeStateIn_wp (fun _ s' h => ⟨s1, hm, h⟩) fun _ s' ⟨ho, h⟩ => ⟨ho, s1, hm, h⟩

/-- `write_state` where the transaction directory is there. -/
theorem writeState_wp (hd : s.get txnP = some .dir) : Sys.WP v (writeState state) s (StateWritten state s)
      (fun o s' => WritesTo stateTmpP o ∧ ∃ ok, StateWritten state s ok s') := by
  have hdirs : ∀ q ∈ ancestors stateTmpP, s.get q = some .dir := fun q hq => by
    by_cases e : q = txnP
    · rw [e, hd]
    · exact FileSys.get_ancestor hd (mem_ancestors.mpr ⟨mem_ancestors_concat.mp hq, e⟩)
  have hsame : ∀ {s1 ok s'}, Makes stateTmpP s s1 → StateWritten state s1 ok s' → StateWritten state s ok s' :=
    fun hm h => ⟨fun q hq => (h.same q hq).trans (hm.get_eq hdirs q), by rw [h.state, hm.get_eq hdirs]⟩
  exact WP.mono writeState_makes_wp (fun _ _ ⟨_, hm, h⟩ => hsame hm h)
    fun _ _ ⟨ho, _, hm, ok, h⟩ => ⟨ho, ok, hsame hm h⟩

end Lorica.Proof.Herald

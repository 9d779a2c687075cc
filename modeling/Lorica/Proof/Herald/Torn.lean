import Lorica.Proof.Herald.Ops
import Lorica.Proof.Herald.Resume

/-!
# herald: a torn journal record

A crash may cut the record that is being appended to the journal. `rollback`
reads a last line without its newline like any other, so a cut within the path
makes it a record of another path, one that the transaction has nothing to do
with: it is unlinked, or copied from a backup that is not there.

`torn_record_spares`: a rollback over a torn record leaves the files of which the
commit has written no whole record (`Recorded`) alone, if the path that the cut
leaves is not one to lose (`TornSafe`), and, in a clean transaction, only if.
-/

namespace Lorica.Proof.Herald

open Lorica.Impl.Herald Posix List

variable {v : Env} {s s' : FileSys} {p q : Path} {recs : List Rec}

/-! ## The journal of any transaction

Whatever is staged and deleted, the journal is a list of whole records while a
commit runs.
-/

/-- The stage tree and the journal. -/
def LogPath (q : Path) : Prop := stageP <+: q ∨ q = journalP

structure Journaled (s : FileSys) : Prop where
  stage : StageOk s
  journal : ∀ b, s.get journalP = some (.file b) → ∃ recs, b = encode recs

/-- The operation appends a record to whole records, or leaves the journal alone. -/
def Appends (o : Op) (s : FileSys) : Prop :=
  (Journaled s ∧ ∃ r : Rec, o = .write txnJournal r.line) ∨ Spares LogPath o

theorem Journaled.of_spared (h : Journaled s)
    (hs : ∀ q b, LogPath q → s'.get q = some (.file b) → s.get q = some (.file b)) : Journaled s' where
  stage p b hb := h.stage p b (hs _ b (.inl (prefix_append _ _)) hb)
  journal b hb := h.journal b (hs _ b (.inr rfl) hb)

theorem Journaled.wp {α : Type} {prog : Sys α} (h : Journaled s) (hu : Uses (Spares LogPath) prog) :
    Sys.WP v prog s (fun _ s' => Journaled s') Appends := by
  have hwp : Sys.WP v prog s (fun _ s' => Journaled s → Journaled s')
      (fun o s' => (Journaled s → Journaled s') ∧ Spares LogPath o) :=
    Uses.wp (M := machine) (R := fun s s' => Journaled s → Journaled s') hu (fun _ h => h)
      (fun _ _ _ h h' hs => h' (h hs)) fun o c s ho _ hs => hs.of_spared fun q b hq => step_spares ho hq c
  exact WP.mono hwp (fun _ _ h' => h' h) fun _ _ h' => .inr h'.2

/-- What the journal holds after an append, if it is a file. -/
theorem append_journal {bs b : Bytes} (h : (s.append (resolve txnJournal) bs).get journalP = some (.file b)) :
    ∃ b', s.get journalP = some (.file b') ∧ b = b' ++ bs := by
  rw [show resolve txnJournal = ⟨journalP, false⟩ by decide] at h
  cases hj : s.get journalP with
  | none => rw [FileSys.append, hj] at h; rw [hj] at h; cases h
  | some n =>
    cases n with
    | dir => rw [FileSys.append, hj] at h; rw [hj] at h; cases h
    | file b' =>
      rw [FileSys.get_append_file hj] at h
      cases h
      exact ⟨b', rfl, rfl⟩

theorem journal_journaled_wp (r : Rec) (hv : v.shorts = false) (h : Journaled s) :
    Sys.WP v (journal r.op (str r.path)) s (fun _ s' => Journaled s') Appends := by
  have happend : Journaled (s.append (resolve txnJournal) r.line) := by
    refine ⟨fun p b hb => h.stage p b ?_, fun b hb => ?_⟩
    · rwa [show resolve txnJournal = ⟨journalP, false⟩ by decide,
        FileSys.get_append_ne _ (stage_spared (prefix_append stageP p)).2.2] at hb
    · obtain ⟨b', hj, rfl⟩ := append_journal hb
      obtain ⟨recs, rfl⟩ := h.journal b' hj
      exact ⟨recs ++ [r], (encode_append recs r).symm⟩
  unfold journal
  split
  · exact h
  refine WP.seq (Q := fun _ s' => Journaled s') ?_ (fun ok s1 h1 => ?_)
  · refine Sys.WP.write (.inl ⟨h, r, rfl⟩) (fun w _ _ hw => ?_) fun _ => h
    rw [hw.resolve_right (by simp [hv]), take_length]
    exact happend
  · cases ok with
    | false => exact h1
    | true => exact h1.wp (.call trivial)

theorem prepareTarget_journaled_wp (hv : v.shorts = false) (h : Journaled s) (hpv : ValidPath p) (hne : p ≠ [])
    (hout : Outside p) (hnl : ∀ n ∈ p, newline ∉ n) :
    Sys.WP v (prepareTarget (str p)) s (fun _ s' => Journaled s') Appends := by
  simp only [prepareTarget, safeRel_str hpv hne, Bool.true_eq_false, false_or, backup_name hne]
  split
  · exact h
  rename_i hlen
  have hgood : Recordable p := ⟨hpv, hne, hout, hnl, by rw [not_or] at hlen; exact not_le.mp hlen.2⟩
  have hrecord : ∀ saved s1, Journaled s1 → Sys.WP v (do
      if ← journal (Rec.mk saved p hgood).op (str p) then parentDirs (slash :: str p) else pure false) s1
      (fun _ s' => Journaled s') Appends := fun saved s1 h1 => by
    refine WP.seq (journal_journaled_wp ⟨saved, p, hgood⟩ hv h1) (fun ok s2 h2 => ?_)
    cases ok with
    | false => exact h2
    | true => exact h2.wp (uses_parentDirs (fun _ => trivial) _)
  refine Sys.WP.lstat (.inr trivial) fun res _ => ?_
  rcases res with e | (b | _)
  · cases e
    case ENOENT => exact hrecord false s h
    all_goals exact h
  · have hbak : ¬ LogPath (resolve (absStr (backupP ++ p))).path := by
      rw [resolve_absStr (backupP_valid.append hpv) (by simp [hne])]
      rintro (hs | hj)
      · exact not_prefix_of_prefix (prefix_append backupP p) (by decide) (by decide) hs
      · exact (journalP_ne_backup p).symm hj
    refine WP.seq (h.wp ((uses_copyFile _ _).mono fun _ => CopyOp.spares hbak)) (fun ok s1 h1 => ?_)
    cases ok with
    | false => exact h1
    | true => exact hrecord true s1 h1
  · exact h

theorem applyDelete_journaled_wp {d : Bytes} (hv : v.shorts = false) (h : Journaled s) (hd : Outside (delPath d))
    (hnl : newline ∉ d) (h0 : 0 ∉ d) : Sys.WP v (applyDelete d) s (fun _ s' => Journaled s') Appends := by
  simp only [applyDelete]
  split
  · exact h
  rename_i hcond
  rw [not_or, Bool.not_eq_false] at hcond
  refine Sys.WP.lstat (.inr trivial) fun res hres => ?_
  rcases res with e | (b | _)
  · exact h
  · obtain ⟨p, hpv, hne, rfl⟩ := safeRel_file hcond.1 h0 (hres.resolve_right fun h => by cases h.2).symm
    have hout : Outside p := by
      rwa [delPath, ← absStr, resolve_absStr hpv hne] at hd
    refine WP.seq (prepareTarget_journaled_wp hv h hpv hne hout fun n hn hm => hnl (mem_str_of_mem hn hm))
      (fun ok s1 h1 => ?_)
    cases ok with
    | false => exact h1
    | true =>
      refine h1.wp (.bind (.call trivial) fun r => ?_)
      split <;> exact .pure _
  · exact h

theorem applyDeletes_journaled_wp {lines : List Bytes} (hv : v.shorts = false) (h : Journaled s)
    (hl : ∀ line ∈ lines, chomp line ≠ [] → Outside (delPath (chomp line))) :
    Sys.WP v (forLines (fun line => if chomp line = [] then pure true else applyDelete (chomp line)) lines) s
      (fun _ s' => Journaled s') Appends := by
  induction lines generalizing s with
  | nil => exact h
  | cons line lines ih =>
    have hl' : ∀ l ∈ lines, chomp l ≠ [] → Outside (delPath (chomp l)) := fun l hm =>
      hl l (mem_cons_of_mem _ hm)
    rw [forLines]
    by_cases hc : chomp line = []
    · rw [if_pos hc]
      exact ih h hl'
    · rw [if_neg hc]
      refine WP.seq (applyDelete_journaled_wp hv h (hl line mem_cons_self hc) (not_mem_chomp line).1
        (not_mem_chomp line).2) (fun ok s1 h1 => ?_)
      cases ok with
      | false => exact h1
      | true => exact ih h1 hl'

theorem moveTarget_journaled_wp {b : Bytes} (hv : v.shorts = false) (h : Journaled s) (hne : p ≠ [])
    (hb : s.get (stageP ++ p) = some (.file b)) :
    Sys.WP v (moveTarget (absStr (stageP ++ p)) (str p)) s (fun _ s' => Journaled s') Appends := by
  have hpv : ValidPath p := (FileSys.get_valid (hb ▸ Option.some_ne_none _) : ValidPath (stageP ++ p)).right
  by_cases hs : Short p
  case neg =>
    rw [moveTarget, prepareTarget_long hne hs]
    exact h
  obtain ⟨hout, hnl⟩ := h.stage p b hb hs
  refine WP.seq (prepareTarget_journaled_wp hv h hpv hne hout hnl) (fun ok s1 h1 => ?_)
  cases ok with
  | false => exact h1
  | true =>
    simp only [ite_true]
    split
    · exact h1
    refine h1.wp (.bind (.call fun hlog => ?_) fun r => ?_)
    · -- the target is outside of the transaction directory
      change LogPath (resolve (absStr p)).path at hlog
      rw [resolve_absStr hpv hne] at hlog
      rcases hlog with hs | rfl
      · exact hout ((prefix_append _ _).trans hs)
      · exact hout journalP_inside
    · split <;> exact .pure _

/-- Replaying whole records leaves the stage and the journal alone. -/
theorem uses_forRecs (recs : List Rec) : Uses (Spares LogPath) (forLines rollbackLine (recs.map Rec.line)) := by
  induction recs with
  | nil => exact .pure _
  | cons r recs ih =>
    have hout : ¬ LogPath (resolve (absStr r.path)).path := by
      rw [resolve_absStr r.good.valid r.good.ne_nil]
      exact fun h => h.elim (fun h => r.good.outside ((prefix_append _ _).trans h)) r.ne_journal
    refine .bind ?_ fun ok => ?_
    · rw [rollbackLine_eq, undoTarget]
      split
      · refine .bind (uses_parentDirs (fun _ => trivial) _) fun ok => ?_
        split
        · exact (uses_copyFile _ _).mono fun _ => CopyOp.spares hout
        · exact .pure _
      · refine .bind (.call trivial) fun r => ?_
        split <;> exact .pure _
    · split
      · exact ih
      · exact .pure _

theorem rollback_journaled_wp (h : Journaled s) : Sys.WP v rollback s (fun _ _ => True) Appends := by
  refine Sys.WP.openRead (.inr trivial) fun res hres => ?_
  rcases res with e | node
  · trivial
  have hst := FileSys.stat_ok (hres.resolve_right fun h => by cases h.2).symm
  -- the contents are whole records, or there are none
  obtain ⟨recs, hrecs⟩ : ∃ recs, contents node = encode recs := by
    cases node with
    | dir => exact ⟨[], rfl⟩
    | file b => exact h.journal b hst.1
  have hlines := lines_encode recs []
  simp only [append_nil, fgetsLines, ite_true] at hlines
  change Sys.WP v (forLines rollbackLine (fgetsLines (txnPathMax + 4) [] (contents node)) >>= _) s _ _
  rw [hrecs, hlines]
  refine WP.seq (h.wp (uses_forRecs recs)) (fun ok s1 _ => ?_)
  cases ok with
  | false => trivial
  | true => exact Sys.WP.sync (.inr trivial) trivial

theorem txnCommit_journaled_wp {s0 : FileSys} (hv : v.shorts = false) (hb : Begun s0) (hin : InBounds s0) :
    Sys.WP v txnCommit s0 (fun _ _ => True) Appends := by
  have h0 : Journaled s0 := ⟨hin.stageOk, fun b h => ⟨[], by rw [hb.journal] at h; cases h; rfl⟩⟩
  have hwrite : ∀ state s, Journaled s → Sys.WP v (writeState state) s (fun _ s' => Journaled s') Appends :=
    fun state s h => h.wp (uses_writeState (by rintro (h | h) <;> revert h <;> decide)
      (by rintro (h | h) <;> revert h <;> decide) state)
  have hbody : ∀ pending s, Journaled s → SameBut StateFile s0 s →
      Sys.WP v (commitBody pending) s (fun _ s' => Journaled s') Appends := fun pending s h hs => by
    refine Sys.WP.openRead (.inr trivial) fun r hr => ?_
    cases r with
    | error e => exact h
    | ok node =>
      have hlines := (lines_delete hs (hr.resolve_right fun h => by cases h.2).symm).2
      change Sys.WP v (forLines _ (fgetsLines txnPathMax [] (contents node)) >>= _) s _ _
      rw [hlines]
      refine WP.seq (applyDeletes_journaled_wp hv h (delete_outside hin.deleted)) (fun ok s1 h1 => ?_)
      cases ok with
      | false => exact h1
      | true =>
        have happly : Sys.WP v (applyStageDir txnPathMax (absStr (stageP ++ [])) (str [])) s1 _ _ :=
          applyStageDir_keeps (fun _ _ _ => .inr trivial) (fun _ _ _ => .inr trivial)
            (fun _ _ _ _ hne hb h => moveTarget_journaled_wp hv h hne hb) .nil h1
        refine WP.seq happly (fun ok s2 h2 => ?_)
        cases ok with
        | false => exact h2
        | true => exact Sys.WP.sync (.inr trivial) (hwrite _ _ h2)
  have haccess : Uses (Spares LogPath) (access (heraldTxnStage ++ heraldUpdatePending)) :=
    .bind (.call trivial) fun r => by split <;> exact .pure _
  refine WP.bind ((access_wp _).and (h0.wp haccess)) (fun pending s hs => ?_) fun _ _ h => h.2
  obtain rfl := hs.1
  refine WP.bind ((writeState_wp hb.txn_dir).and (hwrite _ _ h0)) (fun ok s1 h1 => ?_) fun _ _ h => h.2
  cases ok with
  | false => trivial
  | true =>
    refine Sys.WP.call (.inr trivial) (fun s2 h2 => ?_) fun e _ => trivial
    obtain rfl := openAppend_sem h2
    refine WP.seq (hbody pending s2 h1.2 h1.1.same) (fun rc s3 h3 => ?_)
    refine Sys.WP.close (.inr trivial) fun _ _ => ?_
    cases rc with
    | false => exact WP.seq (rollback_journaled_wp h3) (fun _ _ _ => trivial)
    | true =>
      cases pending with
      | true => trivial
      | false =>
        exact WP.seq (h3.wp ((uses_removeTree _ _).mono fun _ => RemoveOp.spares)) (fun _ _ _ => trivial)

/-! ## What a torn record is taken for -/

/-- The path of a record that is cut to `t`, if `rollback` accepts it and it has no
slash at its end. -/
def tornTarget (t : Bytes) : Option Path :=
  if safeRel (t.drop 2) = true ∧ (t.drop 2).getLast? ≠ some slash then some (resolve (slash :: t.drop 2)).path
  else none

/-- What an operation has appended to the journal, if `write` returns its length. -/
def appended : Op → Choice → FileSys → List Bytes
  | .write path bs, c, s =>
    match (stepWrite path bs c s).1 with
    | .ok n => if path = txnJournal ∧ n = bs.length then [bs] else []
    | .error _ => []
  | _, _, _ => []

/-- A commit along the choices `cs` has written a whole record of the path. -/
def Recorded (s : FileSys) (cs : List Choice) (p : Path) : Prop :=
  journalLine opNew (str p) ∈ txnCommit.log appended cs s ∨ journalLine opReplaced (str p) ∈ txnCommit.log appended cs s

variable {R : Path → Prop}

/-- Where a record that is cut to `t` leads: to a recorded path, or to one that is
no file (when it is to be unlinked), or that is a directory or the same as its
backup (when it is to be restored). -/
def TornSafe (R : Path → Prop) (s : FileSys) (t : Bytes) : Prop :=
  ∀ p ∈ tornTarget t, R p ∨
    if t.head? = some opNew then rootFiles s p = none
    else s.get p = some .dir ∨ s.data (backupP ++ p) = rootFiles s p

/-- A rollback changes recorded files only, if the record `line` being appended in
`s` has been cut after `k` bytes. -/
def TornSpares (R : Path → Prop) (s : FileSys) (line : Bytes) (k : Nat) : Prop :=
  ∀ σ : Nat → Choice, (∀ n, sound.Allows (σ n)) →
    ∀ p, rootFiles (rollback.exec σ (tear (.write txnJournal line) k s)).2 p ≠ rootFiles s p → R p

instance (s : FileSys) (cs : List Choice) : DecidablePred (Recorded s cs) :=
    fun _ => inferInstanceAs (Decidable (_ ∨ _))

instance [DecidablePred R] (s : FileSys) (t : Bytes) : Decidable (TornSafe R s t) :=
  inferInstanceAs (Decidable (∀ p ∈ _, _))

/-- The paths in `R` are those of which the journal has a record. -/
def Lists (R : Path → Prop) (s : FileSys) : Prop :=
  ∀ recs, s.get journalP = some (.file (encode recs)) → ∀ p, ValidPath p → (R p ↔ ∃ r ∈ recs, r.path = p)

/-- The records that a commit has written are those of the journal. -/
theorem recorded_lists {o : Op} {cs : List Choice} (hb : Begun s) (hin : InBounds s)
    (hcs : ∀ c ∈ cs, faulty.Allows c) (hr : txnCommit.run cs s = .crashed o s') : Lists (Recorded s cs) s' := by
  have hlog := WP.run_log (txnCommit_journaled_wp (v := faulty) rfl hb hin) (f := appended) (l := [])
    (J := fun s l => ∀ b, s.get journalP = some (.file b) → ∃ recs : List Rec, l = recs.map Rec.line ∧ b = encode recs)
    (fun o c s l ho hc hJ b hj => ?_) (fun b hj => ⟨[], rfl, ?_⟩) hcs hr
  · intro recs hj p hp
    obtain ⟨recs', hl, he⟩ := hlog _ hj
    have hmap : recs.map Rec.line = recs'.map Rec.line := by
      have := congrArg (fgetsLines (txnPathMax + 4) [] <| · ++ []) he
      simpa only [lines_encode, append_cancel_right_eq] using this
    rw [nil_append, ← hmap] at hl
    rw [Recorded, hl]
    constructor
    · have hpath : ∀ op, journalLine op (str p) ∈ recs.map Rec.line → ∃ r ∈ recs, r.path = p := fun op h => by
        obtain ⟨r, hr, e⟩ := mem_map.mp h
        have e' := append_cancel_right (cons.inj (cons.inj e).2).2
        exact ⟨r, hr, str_injective r.good.valid hp e'⟩
      rintro (h | h) <;> exact hpath _ h
    · rintro ⟨⟨saved, _, hgood⟩, hr, rfl⟩
      cases saved with
      | false => exact .inl (mem_map_of_mem hr)
      | true => exact .inr (mem_map_of_mem hr)
  · rcases ho with ⟨hs, r, rfl⟩ | ho
    · -- a record: all of it is appended, or nothing
      have hall : (s.append (resolve txnJournal) r.line).get journalP = some (.file b) →
          ∃ recs : List Rec, l ++ [r.line] = recs.map Rec.line ∧ b = encode recs := fun hj => by
        obtain ⟨b', hj', rfl⟩ := append_journal hj
        obtain ⟨recs, rfl, rfl⟩ := hJ b' hj'
        exact ⟨recs ++ [r], by simp, (encode_append recs r).symm⟩
      cases c with
      | fail => simpa [appended, stepWrite] using hJ b hj
      | short n => cases hc
      | ok => simpa [appended, stepWrite] using hall hj
      | order ns => simpa [appended, stepWrite] using hall hj
    · have hnone : appended o c s = [] := by
        cases o with
        | write path bs =>
          have hne : path ≠ txnJournal := fun e => ho (e ▸ .inr (by decide))
          simp only [appended, hne, false_and, ite_false]
          split <;> rfl
        | _ => rfl
      rw [hnone, append_nil]
      exact hJ b (step_spares ho (.inr rfl) c hj)
  · rw [hb.journal] at hj
    cases hj
    rfl

variable {k : Nat} {r : Rec}

/-- The bytes of a record that is cut before its end. -/
theorem Rec.take_line (r : Rec) (hk : k < r.line.length) : r.line.take k = (r.op :: tab :: str r.path).take k := by
  rw [r.line_eq] at hk ⊢
  rw [length_append, length_singleton] at hk
  exact take_append_of_le_length (by omega)

theorem Rec.torn_not_mem (r : Rec) (hk : k < r.line.length) : newline ∉ r.line.take k ∧ 0 ∉ r.line.take k := by
  refine ⟨fun h => ?_, fun h => ?_⟩
  · rw [r.take_line hk] at h
    exact r.newline_not_mem (mem_of_mem_take h)
  · have := r.cstr_line
    rw [cstr, takeWhile_eq_self_iff] at this
    simpa using this 0 (mem_of_mem_take h)

theorem Rec.torn_length (r : Rec) (hk : k < r.line.length) : (r.line.take k).length + 2 ≤ txnPathMax + 4 := by
  have := r.length_line
  rw [r.take_line hk, length_take]
  omega

/-- What is left of the path. -/
theorem Rec.torn_rel (r : Rec) (hk : k < r.line.length) :
    ((cstr (r.line.take k)).drop 2).takeWhile (· ≠ newline) = (r.line.take k).drop 2 ∧
      (r.line.take k).drop 2 <+: str r.path := by
  obtain ⟨hnl, h0⟩ := r.torn_not_mem hk
  rw [cstr_of_not_mem h0]
  constructor
  · exact takeWhile_ne_self fun hb => hnl (mem_of_mem_drop hb)
  · rw [r.take_line hk, drop_take]
    exact take_prefix _ _

/-- A cut path has its directories among those of the whole one. -/
theorem ancestors_cut (hp : ValidPath p) (hq : ValidPath q) (hne : p ≠ []) (h : str p <+: str q) :
    ∀ a ∈ ancestors p, a ∈ ancestors q := by
  intro a ha
  obtain ⟨⟨b, rfl⟩, hab⟩ := mem_ancestors.mp ha
  have hbne : b ≠ [] := fun e => hab (by simp [e])
  have hqne : q ≠ [] := by
    rintro rfl
    exact str_ne_nil hp hne (prefix_nil.mp h)
  obtain ⟨rest, hrest⟩ := h
  refine mem_ancestors.mpr ?_
  by_cases hane : a = []
  · subst hane
    exact ⟨ nil_prefix, hqne.symm⟩
  · -- the whole path goes on after the slash
    rw [str_append hane hbne, append_assoc, cons_append] at hrest
    have hsplit := splitOn_str hq hqne
    rw [← hrest, splitOn_append_cons_self, splitOn_str hp.left hane] at hsplit
    refine ⟨⟨_, hsplit⟩, fun e => ?_⟩
    have := congrArg length (hsplit.trans e.symm)
    have hpos := length_pos_of_ne_nil (splitOn_ne_nil slash (str b ++ rest))
    rw [length_append] at this
    omega

theorem Recordable.short_cut (h : Recordable q) (hne : p ≠ []) (hp : str p <+: str q) :
    Short p := by
  have hshort := h.short
  rw [Short, absStr_append (by decide) h.ne_nil] at hshort
  rw [Short, absStr_append (by decide) hne]
  have := hp.length_le
  simp only [length_append, length_cons] at hshort ⊢
  omega

/-- A torn record is refused, or is taken for one of a path that is cut as well, or
for one of a directory. -/
theorem Rec.torn_cases (r : Rec) (hk : k < r.line.length) :
    rollbackLine (r.line.take k) = pure false ∧ tornTarget (r.line.take k) = none ∨
    (∃ p, ValidPath p ∧ p ≠ [] ∧ str p <+: str r.path ∧ tornTarget (r.line.take k) = some p ∧
      (r.line.take k).head? = some r.op ∧ rollbackLine (r.line.take k) = undoTarget r.saved p) ∨
    (resolve (slash :: (r.line.take k).drop 2)).isDir = true ∧ tornTarget (r.line.take k) = none := by
  obtain ⟨hrel, hpre⟩ := r.torn_rel hk
  have h0 := (r.torn_not_mem hk).2
  by_cases hsafe : safeRel ((r.line.take k).drop 2) = true
  · -- there is a path, so there are the two bytes before it
    have hlen : 2 < k := by
      by_contra hlen
      have : (r.line.take k).drop 2 = [] := drop_eq_nil_of_le (by simp; omega)
      rw [this] at hsafe
      cases hsafe
    obtain ⟨k, rfl⟩ : ∃ m, k = m + 2 := ⟨k - 2, by omega⟩
    have hhead : (r.line.take (k + 2)).head? = some r.op := rfl
    have htab : (r.line.take (k + 2))[1]? = some tab := rfl
    obtain ⟨p, hpv, hne, e | e⟩ := safeRel_cases hsafe fun h => h0 (mem_of_mem_drop h)
    · rw [e] at hpre
      have hlast : (str p).getLast? ≠ some slash := getLast?_str hpv hne
      refine .inr (.inl ⟨p, hpv, hne, hpre, ?_, hhead, ?_⟩)
      · rw [tornTarget, if_pos ⟨hsafe, e ▸ hlast⟩, e, ← absStr, resolve_absStr hpv hne]
      · refine rollbackLine_rel hpv hne (r.good.short_cut hne hpre) ?_ ?_ (hrel.trans e)
        · rw [cstr_of_not_mem h0]; rfl
        · rw [cstr_of_not_mem h0, htab]
    · refine .inr (.inr ⟨?_, ?_⟩)
      · rw [e, ← cons_append, ← absStr, resolve_absStr_slash hpv hne]
      · rw [tornTarget, if_neg (by simp [e])]
  · refine .inl ⟨?_, if_neg fun h => hsafe h.1⟩
    simp only [rollbackLine, hrel]
    rw [if_pos (.inr (.inr (.inl (Bool.not_eq_true _ ▸ hsafe))))]

/-! ## What it does -/

/-- Making directories changes no file. -/
theorem parentDirs_data_wp (path : Bytes) :
    Sys.Ends v (parentDirs path) s (fun _ s' => s'.data = s.data) := by
  have hwp : Sys.WP v (parentDirs path) s (fun _ s' => s'.data = s.data)
      (fun o s' => s'.data = s.data ∧ ∃ path, o = .call (.mkdir path)) := by
    refine Uses.wp (M := machine) (R := fun s s' => s'.data = s.data) (uses_parentDirs (fun path => ⟨path, rfl⟩) path)
      (fun _ => rfl) (fun _ _ _ h h' => h'.trans h) fun o c s ho _ => ?_
    obtain ⟨path, rfl⟩ := ho
    change (stepCall (.mkdir path) c s).2.data = s.data
    unfold stepCall
    split
    · rfl
    · split
      · rfl
      · rename_i s' hs
        obtain ⟨hn, hg⟩ := FileSys.mkdir_ok hs
        funext q
        by_cases e : q = (resolve path).path
        · simp only [FileSys.data, hg, e, hn, ite_true]
        · exact FileSys.data_congr (by rw [hg, if_neg e])
  exact WP.ends hwp fun _ _ h => h

theorem unlink_dirName {path : Bytes} (h : (resolve path).isDir = true) :
    (Call.unlink path).sem s ≠ .ok s' := fun e => by
  have := (FileSys.unlink_ok e).1
  rw [h] at this
  cases this

theorem openTrunc_dirName {path : Bytes} (h : (resolve path).isDir = true) :
    (Call.openTrunc path).sem s ≠ .ok s' := fun e => by
  simp only [Call.sem, FileSys.creat] at e
  split at e
  · cases e
  · rw [if_pos (.inr h)] at e
    cases e

/-- A record whose path ends in a slash changes no file. -/
theorem rollbackLine_dirName_wp {line rel : Bytes} (hrel : ((cstr line).drop 2).takeWhile (· ≠ newline) = rel)
    (h : (resolve (slash :: rel)).isDir = true) :
    Sys.Ends v (rollbackLine line) s (fun _ s' => s'.data = s.data) := by
  simp only [rollbackLine, hrel]
  split
  · rfl
  split
  · exact Sys.WP.call trivial (fun s' h' => absurd h' (unlink_dirName h)) fun _ _ => rfl
  split
  · rfl
  refine WP.thenEnds (parentDirs_data_wp _) fun ok s1 h1 => ?_
  cases ok with
  | false => exact h1
  | true =>
    have hbody : ∀ src, Sys.Ends v (copyBody src (slash :: rel)) s1
        (fun ok s' => ok = false ∧ s'.data = s1.data) := fun src => by
      refine Sys.WP.openRead trivial fun r _ => ?_
      cases r with
      | error e => exact ⟨rfl, rfl⟩
      | ok node =>
        refine WP.thenEnds (parentDirs_data_wp _) fun ok s2 h2 => ?_
        cases ok with
        | false => exact ⟨rfl, h2⟩
        | true => exact Sys.WP.call trivial (fun s' h' => absurd h' (openTrunc_dirName h)) fun _ _ => ⟨rfl, h2⟩
    refine WP.thenEnds (hbody _) fun ok s2 h2 => ?_
    obtain ⟨rfl, h2⟩ := h2
    exact Sys.WP.call trivial (fun s' h' => absurd h' (unlink_dirName h)) fun _ _ => h2.trans h1

theorem rollbackLine_keepsDirs_wp (line : Bytes) :
    Sys.Ends v (rollbackLine line) s (fun _ s' => KeepsDirs s s') := by
  have hwp : Sys.WP v (rollbackLine line) s (fun _ s' => KeepsDirs s s') (fun o s' => KeepsDirs s s' ∧ SparesDirs o) :=
    ((uses_rollbackLine line).mono fun _ => UndoOp.sparesDirs).wp KeepsDirs.refl (fun _ _ _ => KeepsDirs.trans)
      fun o c s ho _ => step_keepsDirs ho c s
  exact WP.ends hwp fun _ _ h => h

/-- Undoing a target changes nothing if it is no file, or a directory, or the same
as its backup. -/
theorem undoTarget_same_wp {line : Bytes} {saved : Bool} (hv : v.faults = false) (hpv : ValidPath p) (hne : p ≠ [])
    (hl : Short p) (hline : rollbackLine line = undoTarget saved p)
    (h : if saved = false then s.data p = none else s.get p = some .dir ∨ s.data (backupP ++ p) = s.data p) :
    Sys.Ends v (rollbackLine line) s (fun _ s' => s'.data p = s.data p) := by
  have hdir : s.get p = some .dir →
      Sys.Ends v (rollbackLine line) s (fun _ s' => s'.data p = s.data p) := fun hd =>
    WP.ends (rollbackLine_keepsDirs_wp line) fun _ s' h => by simp only [FileSys.data, hd, h p hd]
  by_cases hd : s.get p = some .dir
  · exact hdir hd
  rw [hline]
  cases saved with
  | false =>
    refine WP.ends (unlinkGone_wp hpv hne) fun ok s' h' => ?_
    cases ok with
    | false => rw [h'.2.1 rfl]
    | true =>
      rw [h]
      exact FileSys.data_eq_none.mpr fun b hb => by rw [(h'.1 rfl).2] at hb; cases hb
  | true =>
    have hbak := h.resolve_left hd
    cases hp : s.data p with
    | none =>
      refine WP.ends (undoTarget_missing_wp hv hpv hne hl (hbak.trans hp) hd) fun ok s' h' => ?_
      exact h'.2 (.inr hp)
    | some b =>
      refine WP.ends (undoTarget_wp hpv hne hl) fun ok s' h' => ?_
      have hok : ok = true := h'.2.2 hv (fun _ => by simp [hbak, hp])
        (Clear.of_get (by simp [FileSys.data_eq_some.mp hp])) hd
      rw [h'.2.1 hok, if_pos rfl, hbak, hp]

/-! ## Rolling back over it -/

/-- The journal has the cut record at its end, and nothing else is changed. -/
theorem torn_same (line : Bytes) (k : Nat) (s : FileSys) :
    SameBut (· = journalP) s (tear (.write txnJournal line) k s) := fun q hq =>
  FileSys.get_append_ne _ (by rwa [show (resolve txnJournal).path = journalP by decide])

theorem torn_journal {b : Bytes} (line : Bytes) (k : Nat) (h : s.get journalP = some (.file b)) :
    (tear (.write txnJournal line) k s).get journalP = some (.file (b ++ line.take k)) := by
  have hres : resolve txnJournal = ⟨journalP, false⟩ := by decide
  change (s.append (resolve txnJournal) (line.take k)).get journalP = _
  rw [hres, FileSys.get_append_file h, if_pos rfl]

theorem torn_rootFiles (line : Bytes) (k : Nat) (s : FileSys) :
    rootFiles (tear (.write txnJournal line) k s) = rootFiles s :=
  rootFiles_sameBut (torn_same line k s) fun _ e => e ▸ journalP_inside

theorem rollback_noFile_wp (h : ∀ b, s.get journalP ≠ some (.file b)) :
    Sys.Ends v rollback s (fun _ s' => s' = s) := by
  refine Sys.WP.openRead trivial fun r hr => ?_
  rcases r with e | (b | _)
  · exact rfl
  · have := (FileSys.stat_ok (hr.resolve_right fun h => by cases h.2).symm).1
    exact absurd this (h b)
  · exact ⟨trivial, fun _ _ => rfl⟩

/-- The last line, if there is one: a torn record that leads to no file to lose
changes no file without a record. -/
theorem rollbackTorn_wp {s1 : FileSys} (hsafe : TornSafe R s (r.line.take k))
    (hk : k < r.line.length) (hrec : ¬ R p) (hdata : s1.data p = s.data p)
    (hd : s.get p = some .dir → s1.get p = some .dir) (hb : s1.data (backupP ++ p) = s.data (backupP ++ p)) :
    Sys.Ends sound (rollbackLine (r.line.take k)) s1 (fun _ s' => rootFiles s' p = rootFiles s1 p) := by
  have hsame : ∀ {s'}, s'.data p = s1.data p → rootFiles s' p = rootFiles s1 p := fun e => by
    simp only [rootFiles, e]
  rcases r.torn_cases hk with ⟨hrefused, -⟩ | ⟨t, htv, htne, hpre, htarget, hhead, hline⟩ | ⟨hdir, -⟩
  · rw [hrefused]
    exact rfl
  · have hl : Short t := r.good.short_cut htne hpre
    by_cases hpt : p = t
    · subst hpt
      by_cases hout : Outside p
      · have hcond := (hsafe p htarget).resolve_left hrec
        rw [hhead, rootFiles_outside hout, ← hdata, ← hb] at hcond
        refine WP.ends (undoTarget_same_wp rfl htv htne hl hline ?_) fun _ s' e => hsame e
        cases hsv : r.saved with
        | false => rwa [if_pos (by simp [Rec.op, hsv])] at hcond
        | true =>
          rw [if_neg (by simp only [Rec.op, hsv]; decide)] at hcond
          exact hcond.imp_left hd
      · rw [hline]
        refine WP.ends (undoTarget_wp htv htne hl) fun _ s' _ => ?_
        rw [rootFiles_inside hout, rootFiles_inside hout]
    · rw [hline]
      exact WP.ends (undoTarget_wp htv htne hl) fun _ s' h => hsame (h.1.data_eq hpt)
  · exact WP.ends (rollbackLine_dirName_wp (r.torn_rel hk).1 hdir) fun _ s' e => hsame (congrFun e p)

/-- A torn record that leads to no file to lose is harmless. -/
theorem TornSafe.spares (hsafe : TornSafe R s (r.line.take k)) (h : Journaled s) (hR : Lists R s)
    (hk : k < r.line.length) : TornSpares R s r.line k := by
  intro σ hσ p hp
  by_contra hrec
  suffices hwp : Sys.Ends sound rollback (tear (.write txnJournal r.line) k s)
      (fun _ s' => rootFiles s' p = rootFiles s p) from hp (WP.exec_done hwp hσ)
  rw [← congrFun (torn_rootFiles r.line k s) p]
  by_cases hfile : ∃ b, s.get journalP = some (.file b)
  · obtain ⟨b, hj⟩ := hfile
    obtain ⟨recs, rfl⟩ := h.journal b hj
    have hun : ∀ r' ∈ recs, r'.path ≠ p := fun r' hr' e =>
      hrec ((hR recs hj p (e ▸ r'.good.valid)).mpr ⟨r', hr', e⟩)
    have hkeep : ∀ {s1 : FileSys}, Replayed recs (tear (.write txnJournal r.line) k s) s1 →
        rootFiles s1 p = rootFiles (tear (.write txnJournal r.line) k s) p := fun hrep => by
      simp only [rootFiles, hrep.data_eq hun]
    refine rollback_frame_wp (torn_journal r.line k hj) (fun s1 _ hrep => hkeep hrep) fun s1 hs1 hrep => ?_
    by_cases hnil : r.line.take k = []
    · rw [hnil]
      exact Sys.WP.sync trivial (hkeep hrep)
    rw [fgetsLines_tail (r.torn_not_mem hk).1 (r.torn_length hk) hnil]
    -- a path without a record is not the journal, and is as it was at the crash
    by_cases hpj : p = journalP
    · subst hpj
      have hin : ∀ s : FileSys, rootFiles s journalP = none := fun s => rootFiles_inside (not_not.mpr journalP_inside)
      exact WP.post WP.trivial (fun _ s' _ => by rw [hin, hin])
    have hget := torn_same r.line k s p hpj
    have hback : s1.data (backupP ++ p) = s.data (backupP ++ p) := by
      rw [FileSys.data_congr (get_inside hs1 (backup_inside p)),
        (torn_same r.line k s).data_eq (journalP_ne_backup p).symm]
    have hline : Sys.Ends sound (rollbackLine (r.line.take k)) s1 (fun _ s' => rootFiles s' p = rootFiles s1 p) :=
      rollbackTorn_wp hsafe hk hrec ((hrep.data_eq hun).trans (FileSys.data_congr hget))
        (fun hd => hrep.get_dir hun (hget.trans hd)) hback
    exact lastLine_wp (WP.post hline (fun _ s' e => e.trans (hkeep hrep)))
  · push Not at hfile
    have hu : ∀ b, (tear (.write txnJournal r.line) k s).get journalP ≠ some (.file b) := fun b hb => by
      change (s.append (resolve txnJournal) _).get journalP = _ at hb
      rw [FileSys.append] at hb
      split at hb
      · rename_i b' hb'
        exact hfile b' hb'
      · exact hfile b hb
    exact WP.post (rollback_noFile_wp hu) (fun _ s' e => by rw [e])

/-- The path that a cut leaves is outside of the transaction directory, or is it. -/
theorem Rec.torn_outside (r : Rec) (hpv : ValidPath p) (hne : p ≠ []) (hpre : str p <+: str r.path) :
    Outside p ∨ p = txnP := by
  by_cases hp : p = txnP
  · exact .inr hp
  · refine .inl fun hin => r.good.outside ?_
    have ha : txnP ∈ ancestors p := mem_ancestors.mpr ⟨hin, Ne.symm hp⟩
    exact (mem_ancestors.mp (ancestors_cut hpv r.good.valid hne hpre txnP ha)).1

/-- The other way round: a file that a torn record leads to is lost, or changed, as
the records before it can be replayed. -/
theorem TornSpares.safe {orig : Path → Option Bytes} (hsp : TornSpares R s r.line k) (hR : Lists R s)
    (h : Logged orig recs [] s) (hnext : r.Next recs s) (hk : k < r.line.length) : TornSafe R s (r.line.take k) := by
  intro p htarget
  by_contra hno
  obtain ⟨hrec, hcond⟩ := not_or.mp hno
  obtain ⟨t, htv, htne, hpre, htarget', hhead, hline⟩ : ∃ p, ValidPath p ∧ p ≠ [] ∧ str p <+: str r.path ∧
      tornTarget (r.line.take k) = some p ∧ (r.line.take k).head? = some r.op ∧
      rollbackLine (r.line.take k) = undoTarget r.saved p := by
    rcases r.torn_cases hk with ⟨-, e⟩ | hcut | ⟨-, e⟩
    · rw [e] at htarget; cases htarget
    · exact hcut
    · rw [e] at htarget; cases htarget
  obtain rfl : p = t := Option.some.inj (htarget.symm.trans htarget')
  have hl := r.good.short_cut htne hpre
  have hun : ∀ r' ∈ recs, r'.path ≠ p := fun r' hr' e => hrec ((hR recs h.journal_eq p htv).mpr ⟨r', hr', e⟩)
  have hout : Outside p := by
    refine (r.torn_outside htv htne hpre).resolve_right fun e => hcond ?_
    subst e
    split
    · exact rootFiles_inside (not_not.mpr (prefix_refl _))
    · exact .inl h.txn_dir
  have hsame := torn_same r.line k s
  have hlog : Logged orig recs (r.line.take k) (tear (.write txnJournal r.line) k s) :=
    h.of_inside (hsame.mono fun _ e => e ▸ journalP_inside) (torn_journal r.line k h.journal_eq)
      fun r' _ _ => hsame.data_eq (journalP_ne_backup r'.path).symm
  rw [hhead, rootFiles_outside hout] at hcond
  suffices hwp : Sys.Ends sound rollback (tear (.write txnJournal r.line) k s)
      (fun _ s' => s'.data p ≠ s.data p) by
    refine hrec (hsp (fun _ => .ok) (fun _ => trivial) p ?_)
    rw [rootFiles_outside hout, rootFiles_outside hout]
    exact WP.exec_done hwp fun _ => trivial
  refine rollback_tail_wp hlog (fun _ _ _ _ _ => trivial) (fun _ _ _ hf => by cases hf) fun s1 _ hs1 _ hrep => ?_
  have hnil : r.line.take k ≠ [] := fun e => by rw [e] at hhead; cases hhead
  rw [fgetsLines_tail (r.torn_not_mem hk).1 (r.torn_length hk) hnil]
  refine lastLine_wp ?_
  rw [hline]
  have hpj : p ≠ journalP := fun e => hout (e ▸ journalP_inside)
  have hdata : s1.data p = s.data p := (hrep.data_eq hun).trans (hsame.data_eq hpj)
  have hback : s1.data (backupP ++ p) = s.data (backupP ++ p) := by
    rw [FileSys.data_congr (get_inside hs1 (backup_inside p)), hsame.data_eq (journalP_ne_backup p).symm]
  have hthere : ∀ {b}, s.data p = some b → Clear s1 p ∧ s1.get p ≠ some .dir := fun hb => by
    have := FileSys.data_eq_some.mp (hdata.trans hb)
    exact ⟨Clear.of_get (by simp [this]), by simp [this]⟩
  cases hsv : r.saved with
  | false =>
    rw [if_pos (by simp [Rec.op, hsv])] at hcond
    obtain ⟨b, hb⟩ := Option.ne_none_iff_exists'.mp hcond
    refine WP.mono (undoTarget_wp htv htne hl) (fun ok s' h' => ?_) fun _ _ h => trivial
    obtain ⟨-, hok, hnf⟩ := h'
    rw [hok (hnf rfl (by simp) (hthere hb).1 (hthere hb).2), hb]
    simp
  | true =>
    rw [if_neg (by simp only [Rec.op, hsv]; decide), not_or] at hcond
    obtain ⟨hnd, hdiff⟩ := hcond
    cases hb : s.data p with
    | some b =>
      cases hbak : s.data (backupP ++ p) with
      | none =>
        refine WP.ends (undoTarget_missing_wp rfl htv htne hl (hback.trans hbak) (hthere hb).2)
          fun ok s' h' => ?_
        rw [h'.2 (.inl (hthere hb).1)]
        simp
      | some b' =>
        refine WP.mono (undoTarget_wp htv htne hl) (fun ok s' h' => ?_) fun _ _ h => trivial
        obtain ⟨-, hok, hnf⟩ := h'
        rw [hok (hnf rfl (fun _ => by simp [hback, hbak]) (hthere hb).1 (hthere hb).2), hback, ← hb]
        exact hdiff
    | none =>
      -- nothing was there, and what is in the backup is put there
      rw [hb] at hdiff
      have hget : s1.get p ≠ some .dir := fun hd => by
        rcases hrep p hun with e | ⟨⟨r', hr', ha⟩, -, -⟩
        · rw [e, hsame p hpj] at hd
          exact hnd hd
        · exact hnd (hnext.dirs r' hr' p ha)
      have hclear : Clear s1 p := fun a ha b hab => by
        obtain ⟨c, hc⟩ := Option.ne_none_iff_exists'.mp (hnext.there hsv)
        have hd : s.get a = some .dir :=
          FileSys.get_ancestor (FileSys.data_eq_some.mp hc) (ancestors_cut htv r.good.valid htne hpre a ha)
        have haj : a ≠ journalP := fun e => outside_above hout (mem_ancestors.mp ha).1 (e ▸ journalP_inside)
        rw [hrep.get_dir (fun r' hr' e => (h.clear r' hr').2 (e ▸ hd)) ((hsame a haj).trans hd)] at hab
        cases hab
      refine WP.mono (undoTarget_wp htv htne hl) (fun ok s' h' => ?_) fun _ _ h => trivial
      obtain ⟨-, hok, hnf⟩ := h'
      rw [hok (hnf rfl (fun _ => hback ▸ hdiff) hclear hget), hback]
      exact hdiff

/-- A transaction that stages `bin/foobar`, where there is a file `bin/foo`. -/
def shadowed : FileSys := .ofList
  [(stateP, .file (stateBytes statePrepared)), (journalP, .file []), (deleteP, .file []),
    (stageP ++ [ascii "bin", ascii "foobar"], .file (ascii "new")), ([ascii "bin", ascii "foo"], .file (ascii "foo"))]

end Lorica.Proof.Herald

import Lorica.Framework.UndoLog
import Lorica.Proof.Herald.Control

/-!
# herald: the journal as an undo log

A record of the journal names a path that can be recorded (`Recordable`), and
says whether its old contents are in the backup (`R`) or there were none (`N`).
`rollbackLine_eq`: `rollback` reads a record back as it was written.

`Logged orig recs tail s`: in `s` the journal has the records `recs` and then the
bytes `tail`, and with the backups it is an undo log by which the root files can
be brought back to `orig`. Changes of recorded paths keep it (`Logged.poke`), and
so does recording another one (`Logged.record`).

`rollback_wp`: a rollback keeps `Logged` wherever it stops; without faults it
ends with the root files `orig`.
-/

namespace Lorica.Proof.Herald

open Lorica.Impl.Herald Posix List

variable {v : Env} {s s' : FileSys} {p q : Path}

/-! ## Relative names -/

theorem safeComponents_valid (hp : ValidPath p) : safeComponents p = true := by
  induction p with
  | nil => rfl
  | cons n p ih =>
    have hn := hp n mem_cons_self
    cases p with
    | nil => simp [safeComponents, hn.ne_dot, hn.ne_dotdot]
    | cons m p =>
      rw [safeComponents, ih fun k hk => hp k (mem_cons_of_mem _ hk)]
      · simp [hn.ne_nil, hn.ne_dot, hn.ne_dotdot]
      · simp

/-- Paths are safe names. -/
theorem safeRel_str (hp : ValidPath p) (hne : p ≠ []) : safeRel (str p) = true := by
  have hhead : (str p).head? ≠ some slash := by
    obtain ⟨n, p, rfl⟩ := exists_cons_of_ne_nil hne
    have hn := hp n mem_cons_self
    obtain ⟨b, n, rfl⟩ := exists_cons_of_ne_nil hn.ne_nil
    have hb : b ≠ slash := fun e => hn.no_slash (e ▸ mem_cons_self)
    cases p with
    | nil => simpa using hb
    | cons m p =>
      rw [show (b :: n) :: m :: p = [b :: n] ++ (m :: p) from rfl, str_append (by simp) (by simp)]
      simpa using hb
  rw [safeRel, splitOn_str hp hne, safeComponents_valid hp]
  simp [str_ne_nil hp hne, hhead]

theorem safeComponents_concat (cs : List Bytes) (c : Bytes) : safeComponents (cs ++ [c]) = true ↔
      (∀ d ∈ cs, d ≠ [] ∧ d ≠ dot ∧ d ≠ dotdot) ∧ c ≠ dot ∧ c ≠ dotdot := by
  induction cs with
  | nil => simp [safeComponents]
  | cons d cs ih =>
    rw [cons_append, safeComponents, Bool.and_eq_true_iff, ih, decide_eq_true_eq, forall_mem_cons]
    · exact and_assoc.symm
    · simp

/-- A safe name is the spelling of a path, or that and a slash. -/
theorem safeRel_cases {rel : Bytes} (h : safeRel rel = true) (h0 : 0 ∉ rel) :
    ∃ p, ValidPath p ∧ p ≠ [] ∧ (rel = str p ∨ rel = str p ++ [slash]) := by
  obtain ⟨hne, hsafe⟩ := Bool.and_eq_true_iff.mp h
  have hne := (of_decide_eq_true hne).1
  have hjoin : str (rel.splitOn slash) = rel := intercalate_splitOn slash
  obtain ⟨cs, c, hcs⟩ := eq_nil_or_concat' (rel.splitOn slash) |>.resolve_left (splitOn_ne_nil _ _)
  have hpart : ∀ d ∈ cs ++ [c], slash ∉ d ∧ 0 ∉ d := fun d hd => by
    have := mem_splitOn (hcs ▸ hd)
    exact ⟨this.1, fun h => h0 (this.2 _ h)⟩
  rw [hcs, safeComponents_concat] at hsafe
  have hvalid : ValidPath cs := fun d hd => by
    have ⟨h1, h2, h3⟩ := hsafe.1 d hd
    have ⟨h4, h5⟩ := hpart d (mem_append_left _ hd)
    exact ⟨h1, h4, h5, h2, h3⟩
  rw [hcs] at hjoin
  by_cases hc : c = []
  · subst hc
    have hcsne : cs ≠ [] := fun e => hne (by rw [← hjoin, e]; rfl)
    refine ⟨cs, hvalid, hcsne, .inr ?_⟩
    rw [← hjoin, str_append hcsne (by simp)]
    simp
  · have ⟨h4, h5⟩ := hpart c (by simp)
    have hcv : ValidName c := ⟨hc, h4, h5, hsafe.2.1, hsafe.2.2⟩
    exact ⟨cs ++ [c], hvalid.append fun d hd => mem_singleton.mp hd ▸ hcv, by simp, .inl hjoin.symm⟩

theorem mem_str {b : UInt8} (h : b ∈ str p) : b = slash ∨ ∃ n ∈ p, b ∈ n := by
  induction p with
  | nil => cases h
  | cons n p ih =>
    by_cases hp : p = []
    · subst hp
      exact .inr ⟨n, by simp, by simpa using h⟩
    · rw [show n :: p = [n] ++ p from rfl, str_append (by simp) hp, str_singleton, mem_append,
        mem_cons] at h
      rcases h with h | h | h
      · exact .inr ⟨n, by simp, h⟩
      · exact .inl h
      · exact (ih h).imp_right fun ⟨m, hm, hb⟩ => ⟨m, mem_cons_of_mem _ hm, hb⟩

theorem mem_str_of_mem {b : UInt8} {n : Name} (hn : n ∈ p) (hb : b ∈ n) : b ∈ str p := by
  induction p with
  | nil => cases hn
  | cons m p ih =>
    by_cases hp : p = []
    · subst hp
      rw [mem_singleton] at hn
      simpa [← hn] using hb
    · rw [show m :: p = [m] ++ p from rfl, str_append (by simp) hp, str_singleton, mem_append]
      rcases mem_cons.mp hn with rfl | hn
      · exact .inl hb
      · exact .inr (mem_cons_of_mem _ (ih hn))

theorem nul_not_mem_str (hp : ValidPath p) : 0 ∉ str p := fun h => by
  rcases mem_str h with h | ⟨n, hn, h⟩
  · exact absurd h (by decide)
  · exact (hp n hn).no_nul h

/-! ## Records -/

/-- The name of the backup of `p`. -/
theorem backup_name (hne : p ≠ []) : txnBackup ++ slash :: str p = absStr (backupP ++ p) := by
  rw [txnBackup_eq, absStr_append (by decide) hne]

/-- The path is not too long for `prepare_target`: the name of its backup fits. -/
abbrev Short (p : Path) : Prop := (absStr (backupP ++ p)).length < txnPathMax

/-- A path that `prepare_target` can record, and `rollback` read back. -/
structure Recordable (p : Path) : Prop where
  valid : ValidPath p
  ne_nil : p ≠ []
  outside : Outside p
  no_newline : ∀ n ∈ p, newline ∉ n
  short : Short p

theorem short_of_backup (hne : p ≠ []) (h : Short p) : (absStr p).length < txnPathMax := by
  rw [Short, absStr_append (by decide) hne] at h
  simp only [length_append, absStr] at h ⊢
  omega

theorem Recordable.short_abs (h : Recordable p) : (absStr p).length < txnPathMax := short_of_backup h.ne_nil h.short

theorem Recordable.newline_not_mem (h : Recordable p) : newline ∉ str p := fun hm => by
  rcases mem_str hm with hm | ⟨n, hn, hm⟩
  · exact absurd hm (by decide)
  · exact h.no_newline n hn hm

/-- A record of the journal: whether the old contents of a path are backed up,
or there were none. -/
structure Rec where
  saved : Bool
  path : Path
  good : Recordable path

def Rec.op (r : Rec) : UInt8 := if r.saved = true then opReplaced else opNew

def Rec.line (r : Rec) : Bytes := journalLine r.op (str r.path)

/-- The bytes of the journal. -/
def encode (recs : List Rec) : Bytes := recs.flatMap Rec.line

theorem encode_append (recs : List Rec) (r : Rec) : encode (recs ++ [r]) = encode recs ++ r.line := by
  simp [encode]

theorem Rec.backup_valid (r : Rec) : ValidPath (backupP ++ r.path) := backupP_valid.append r.good.valid

theorem Rec.ne_journal (r : Rec) : r.path ≠ journalP :=
  fun e => r.good.outside (e ▸ prefix_append _ _)

theorem Rec.op_ne_zero (r : Rec) : r.op ≠ 0 := by
  unfold Rec.op; split <;> decide

theorem Rec.line_eq (r : Rec) : r.line = (r.op :: tab :: str r.path) ++ [newline] := by
  simp [Rec.line, journalLine]

theorem Rec.newline_not_mem (r : Rec) : newline ∉ r.op :: tab :: str r.path := by
  have h1 : newline ≠ r.op := by unfold Rec.op; split <;> decide
  have h2 : newline ≠ tab := by decide
  simp [h1, h2, r.good.newline_not_mem]

theorem Rec.length_line (r : Rec) : (r.op :: tab :: str r.path).length + 2 ≤ txnPathMax + 4 := by
  have := r.good.short_abs
  simp only [absStr, length_cons] at this ⊢
  omega

theorem Rec.cstr_line (r : Rec) : cstr r.line = r.line := by
  refine cstr_of_not_mem fun h => ?_
  rw [r.line_eq, mem_append, mem_cons, mem_cons] at h
  rcases h with (h | h | h) | h
  · exact r.op_ne_zero h.symm
  · exact absurd h (by decide)
  · exact nul_not_mem_str r.good.valid h
  · exact absurd h (by decide)

theorem Rec.rel_line (r : Rec) : (r.line.drop 2).takeWhile (· ≠ newline) = str r.path := by
  have : r.line.drop 2 = str r.path ++ [newline] := rfl
  rw [this, takeWhile_ne_of_not_mem r.good.newline_not_mem]

/-- What `rollback` does for a record of `p`. -/
def undoTarget (saved : Bool) (p : Path) : Sys Bool :=
  if saved = true then do
    if ← parentDirs (absStr p) then copyFile (absStr (backupP ++ p)) (absStr p) else pure false
  else unlinkGone (absStr p)

/-- A line whose name is the spelling of `p`, with or without a newline after it. -/
theorem rollbackLine_rel {line : Bytes} {saved : Bool} (hv : ValidPath p) (hne : p ≠ []) (hs : Short p)
    (hhead : (cstr line).head? = some (if saved = true then opReplaced else opNew))
    (htab : (cstr line)[1]? = some tab) (hrel : ((cstr line).drop 2).takeWhile (· ≠ newline) = str p) :
    rollbackLine line = undoTarget saved p := by
  have hdst : (str p).length + 1 < txnPathMax := short_of_backup hne hs
  have hbak : ¬ (txnBackup ++ slash :: str p).length ≥ txnPathMax := by
    rw [backup_name hne]; exact not_le.mpr hs
  simp only [rollbackLine, hrel, hhead, htab, safeRel_str hv hne]
  cases saved with
  | true =>
    rw [if_neg (by simp [hdst]), if_neg hbak, backup_name hne]
    rfl
  | false =>
    rw [if_neg (by simp [hdst])]
    rfl

/-- `rollback` reads a record back. -/
theorem rollbackLine_eq (r : Rec) : rollbackLine r.line = undoTarget r.saved r.path := by
  refine rollbackLine_rel r.good.valid r.good.ne_nil r.good.short ?_ ?_ ?_
  all_goals rw [r.cstr_line]
  · rfl
  · rfl
  · exact r.rel_line

/-- The lines of a journal, up to its torn tail. -/
theorem lines_encode (recs : List Rec) (tail : Bytes) : fgetsLines (txnPathMax + 4) [] (encode recs ++ tail) =
      recs.map Rec.line ++ fgetsLines (txnPathMax + 4) [] tail := by
  have := fgetsLines_flatMap (txnPathMax + 4) (recs.map fun r => r.op :: tab :: str r.path)
    (fun l hl => by
      obtain ⟨r, _, rfl⟩ := mem_map.mp hl
      exact ⟨r.newline_not_mem, r.length_line⟩) tail
  rw [flatMap_map, map_map] at this
  exact this

/-! ## The journal as an undo log -/

/-- What a record says its path held. -/
def Rec.old (s : FileSys) (r : Rec) : Option Bytes :=
  if r.saved = true then s.data (backupP ++ r.path) else none

def Rec.entry (s : FileSys) (r : Rec) : UndoLog.Entry Path Bytes := ⟨r.path, r.old s⟩

/-- The root files of `s` can be brought back to `orig` by the records `recs`
of the journal, which ends in `tail`. -/
structure Logged (orig : Path → Option Bytes) (recs : List Rec) (tail : Bytes) (s : FileSys) : Prop where
  journal : s.get journalP = some (.file (encode recs ++ tail))
  undo : UndoLog.Recoverable orig (recs.map (Rec.entry s)) (rootFiles s)
  saved : ∀ r ∈ recs, r.saved = true → s.data (backupP ++ r.path) ≠ none
  /-- The recorded paths can be restored: nothing is in the way. -/
  clear : ∀ r ∈ recs, Clear s r.path ∧ s.get r.path ≠ some .dir
  apart : ∀ r ∈ recs, ∀ r' ∈ recs, r.path ∉ ancestors r'.path

variable {orig : Path → Option Bytes} {recs : List Rec} {tail : Bytes}

theorem Logged.rest (h : Logged orig recs tail s) (hq : ∀ r ∈ recs, r.path ≠ q) : rootFiles s q = orig q := by
  refine h.undo.rest q fun e he => ?_
  obtain ⟨r, hr, rfl⟩ := mem_map.mp he
  exact hq r hr

theorem Logged.old {r : Rec} (h : Logged orig recs tail s) (hr : r ∈ recs) : r.old s = orig r.path :=
  h.undo.old (r.entry s) (mem_map_of_mem hr)

theorem Logged.journal_eq (h : Logged orig recs [] s) : s.get journalP = some (.file (encode recs)) := by
  rw [h.journal, append_nil]

theorem Rec.entry_congr (h : SameBut Outside s s') : Rec.entry s' = Rec.entry s := by
  funext r
  simp only [Rec.entry, Rec.old, FileSys.data_congr (get_inside h (backup_inside r.path))]

/-- Changing a recorded path keeps the root recoverable. -/
theorem Logged.poke {r : Rec} (h : Logged orig recs tail s) (hr : r ∈ recs) (hp : Pokes r.path s s') :
    Logged orig recs tail s' where
  journal := by
    rw [get_inside (pokes_outside hp r.good.outside) journalP_inside]
    exact h.journal
  undo := by
    rw [Rec.entry_congr (pokes_outside hp r.good.outside)]
    refine h.undo.poke (mem_map_of_mem hr) fun k hk => ?_
    unfold rootFiles
    rw [hp.data_eq hk]
  saved r' hr' hs := by
    rw [FileSys.data_congr (get_inside (pokes_outside hp r.good.outside) (backup_inside r'.path))]
    exact h.saved r' hr' hs
  clear r' hr' := by
    constructor
    · intro q hq b hb
      have hne : q ≠ r.path := fun e => h.apart r hr r' hr' (e ▸ hq)
      exact (h.clear r' hr').1 q hq b (hp.file_before hne hb)
    · by_cases e : r'.path = r.path
      · rw [e]
        exact fun hd => (h.clear r hr).2 (hp.self hd)
      · rw [hp.get_eq e (h.apart r' hr' r hr)]
        exact (h.clear r' hr').2
  apart := h.apart

/-- Changes in the transaction directory that spare the journal's records and
the backups they need keep the root recoverable. -/
theorem Logged.of_inside {tail' : Bytes} (h : Logged orig recs tail s) (hs : SameBut (txnP <+: ·) s s')
    (hj : s'.get journalP = some (.file (encode recs ++ tail')))
    (hb : ∀ r ∈ recs, r.saved = true → s'.data (backupP ++ r.path) = s.data (backupP ++ r.path)) :
    Logged orig recs tail' s' where
  journal := hj
  undo := by
    have he : recs.map (Rec.entry s') = recs.map (Rec.entry s) := map_congr_left fun r hr => by
      unfold Rec.entry Rec.old
      split
      · rw [hb r hr ‹_›]
      · rfl
    rw [he, rootFiles_sameBut hs fun _ h => h]
    exact h.undo
  saved r hr hs' := by rw [hb r hr hs']; exact h.saved r hr hs'
  clear r hr := by
    have hout := r.good.outside
    refine ⟨fun q hq b hb => ?_, ?_⟩
    · rw [hs q (outside_above hout (mem_ancestors.mp hq).1)] at hb
      exact (h.clear r hr).1 q hq b hb
    · rw [hs r.path hout]
      exact (h.clear r hr).2
  apart := h.apart

/-- The journal is there, so the transaction directory is. -/
theorem Logged.txn_dir (h : Logged orig recs tail s) : s.get txnP = some .dir :=
  FileSys.get_ancestor h.journal (ancestors_append_left (by decide))

/-- Backing up a path that is not recorded keeps the root recoverable. -/
theorem Logged.stash (h : Logged orig recs tail s) (hp : Pokes (backupP ++ p) s s')
    (hun : ∀ r ∈ recs, r.path ≠ p) : Logged orig recs tail s' := by
  have hne : ∀ {q}, q ≠ p → backupP ++ q ≠ backupP ++ p := fun hq e => hq (append_cancel_left e)
  refine h.of_inside ?_ ?_ fun r hr hs => ?_
  · refine Pokes.sameBut (q := ascii "backup" :: p) ?_ h.txn_dir
    simpa [backupP] using hp
  · exact hp.get_file (journalP_ne_backup p) h.journal
  · obtain ⟨b, hb⟩ := Option.ne_none_iff_exists'.mp (h.saved r hr hs)
    rw [hb]
    exact FileSys.data_eq_some.mpr (hp.get_file (hne (hun r hr)) (FileSys.data_eq_some.mp hb))

/-- Recording a path whose contents are in the backup, or that is not there. -/
theorem Logged.record {r : Rec} (h : Logged orig recs [] s) (hs : SameBut (· = journalP) s s')
    (hj : s'.get journalP = some (.file (encode recs ++ r.line))) (hold : r.old s = rootFiles s r.path)
    (hsaved : r.saved = true → s.data (backupP ++ r.path) ≠ none) (hun : ∀ r' ∈ recs, r'.path ≠ r.path)
    (hclear : Clear s r.path ∧ s.get r.path ≠ some .dir)
    (hapart : ∀ r' ∈ recs, r'.path ∉ ancestors r.path ∧ r.path ∉ ancestors r'.path) :
    Logged orig (recs ++ [r]) [] s' := by
  have hs' : SameBut (txnP <+: ·) s s' := hs.mono fun q e => e ▸ journalP_inside
  have hb : ∀ q, s'.data (backupP ++ q) = s.data (backupP ++ q) := fun q =>
    hs.data_eq (journalP_ne_backup q).symm
  have h' : Logged orig recs r.line s' := h.of_inside hs' hj fun r _ _ => hb r.path
  have hentry : r.entry s' = ⟨r.path, rootFiles s' r.path⟩ := by
    rw [rootFiles_sameBut hs' fun _ h => h, ← hold]
    simp only [Rec.entry, Rec.old, hb]
  have hclear' : Clear s' r.path ∧ s'.get r.path ≠ some .dir := by
    refine ⟨fun q hq b hg => ?_, ?_⟩
    · rw [hs' q (outside_above r.good.outside (mem_ancestors.mp hq).1)] at hg
      exact hclear.1 q hq b hg
    · rw [hs' r.path r.good.outside]; exact hclear.2
  constructor
  case journal => rw [hj, encode_append, append_nil]
  case undo =>
    rw [map_append, map_singleton, hentry]
    exact h'.undo.record (h'.rest hun)
  case saved =>
    intro r' hr' hsv
    rcases mem_append.mp hr' with hr' | hr'
    · exact h'.saved r' hr' hsv
    · rw [mem_singleton] at hr'
      subst hr'
      rw [hb]; exact hsaved hsv
  case clear =>
    intro r' hr'
    rcases mem_append.mp hr' with hr' | hr'
    · exact h'.clear r' hr'
    · rw [mem_singleton] at hr'
      subst hr'
      exact hclear'
  case apart =>
    intro r1 h1 r2 h2
    simp only [mem_append, mem_singleton] at h1 h2
    rcases h1 with h1 | rfl <;> rcases h2 with h2 | rfl
    · exact h.apart r1 h1 r2 h2
    · exact (hapart r1 h1).1
    · exact (hapart r2 h2).2
    · exact not_mem_ancestors_self _

/-- `journal`: the record is in the journal, or the journal is as it was and the
call failed. A crash before the write leaves the journal as it was. -/
theorem journal_wp {b : Bytes} (r : Rec) (hv : v.shorts = false) (h : s.get journalP = some (.file b)) :
    Sys.WP v (journal r.op (str r.path)) s (fun ok s' => SameBut (· = journalP) s s' ∧
        (s'.get journalP = some (.file (b ++ r.line)) ∨ ok = false ∧ s'.get journalP = some (.file b)))
      (fun o s' => SameBut (· = journalP) s s' ∧ (o = .write txnJournal r.line ∧ s'.get journalP = some (.file b) ∨
          SparesJournal o ∧ s'.get journalP = some (.file (b ++ r.line)))) := by
  have hlen : ¬ (journalLine r.op (str r.path)).length ≥ txnPathMax + 4 := by
    have hl := r.length_line
    have he : (journalLine r.op (str r.path)).length = (r.op :: tab :: str r.path).length + 1 := by
      simp [journalLine]
    omega
  rw [journal, if_neg hlen]
  refine WP.bind (writeFull_wp journalP_valid h) (fun ok s1 ⟨hs, w, _, hg, hok, hz⟩ => ?_)
    fun o s' ⟨ho, hs⟩ => by subst hs; exact ⟨.refl _ _, .inl ⟨ho, h⟩⟩
  cases ok with
  | false =>
    rw [hz rfl hv, take_zero, append_nil] at hg
    exact ⟨hs, .inr ⟨rfl, hg⟩⟩
  | true =>
    rw [hok rfl, take_length] at hg
    exact ⟨⟨hs, .inr ⟨(Quiet.fsync _).sparesJournal, hg⟩⟩, fun _ _ => ⟨hs, .inl hg⟩⟩

/-! ## Rolling back -/

/-- Making the directories of a path leaves its backup. -/
theorem makes_backup (h : Makes p s s') : s'.get (backupP ++ p) = s.get (backupP ++ p) :=
  (h _).resolve_right fun hmade => by
    have := (mem_ancestors.mp hmade.1).1.length_le
    simp only [backupP, length_append, length_cons] at this
    omega

/-- Undoing one target: it gets the contents of its backup back, or is removed. -/
theorem undoTarget_wp {saved : Bool} (hv : ValidPath p) (hne : p ≠ [])
    (hl : Short p) : Sys.WP v (undoTarget saved p) s
      (fun ok s' => Pokes p s s' ∧ (ok = true → s'.data p = if saved = true then s.data (backupP ++ p) else none) ∧
        (v.faults = false → (saved = true → s.data (backupP ++ p) ≠ none) → Clear s p → s.get p ≠ some .dir →
          ok = true)) (fun o s' => Pokes p s s' ∧ WritesTo p o) := by
  have hl' := short_of_backup hne hl
  cases saved with
  | false =>
    refine WP.mono (unlinkGone_wp hv hne) (fun ok s' h => ?_) fun o s' h => ⟨h.1 ▸ .refl _ _, h.2.writesTo⟩
    obtain ⟨hok, herr, hnf⟩ := h
    cases ok with
    | false => exact ⟨herr rfl ▸ .refl _ _, by simp, fun h _ => hnf h⟩
    | true =>
      obtain ⟨hs', hn⟩ := hok rfl
      refine ⟨hs'.pokes (by simp [hn]), fun _ => ?_, fun _ _ _ _ => rfl⟩
      exact FileSys.data_eq_none.mpr fun b hb => by rw [hn] at hb; cases hb
  | true =>
    simp only [ite_true]
    refine WP.bind (parentDirs_wp hv hne hl') (fun ok s1 h1 => ?_) fun o s' h => ⟨h.1.pokes, h.2⟩
    obtain ⟨hm, -, hnf⟩ := h1
    cases ok with
    | false => exact ⟨hm.pokes, by simp, fun h _ hc _ => hnf h hc⟩
    | true =>
      have hbak := makes_backup hm
      refine WP.mono (copyFile_wp (backupP_valid.append hv) (by simp [hne]) hv hne hl')
        (fun ok s' h => ⟨hm.pokes.trans h.1, fun e => ?_, fun hf hb hc hd => ?_⟩)
        fun o s' h => ⟨hm.pokes.trans h.1, h.2⟩
      · obtain ⟨b, hb, hb'⟩ := h.2.1 e
        rw [FileSys.data_eq_some.mpr hb', FileSys.data_eq_some.mpr (hbak ▸ hb)]
      · obtain ⟨b, hb⟩ := Option.ne_none_iff_exists'.mp (hb trivial)
        refine h.2.2 hf ⟨b, hbak ▸ FileSys.data_eq_some.mp hb⟩ (hm.clear hc) ?_
        rw [hm.get_self]; exact hd

/-- Without faults, a target whose backup is missing is removed, if its directories
can be made; none is made in any case. -/
theorem undoTarget_missing_wp (hf : v.faults = false) (hv : ValidPath p) (hne : p ≠ [])
    (hl : Short p) (hmiss : s.data (backupP ++ p) = none)
    (hd : s.get p ≠ some .dir) : Sys.Ends v (undoTarget true p) s
      (fun ok s' => ok = false ∧ (Clear s p ∨ s.data p = none → s'.data p = none)) := by
  have hl' := short_of_backup hne hl
  refine WP.thenEnds (parentDirs_wp hv hne hl') fun ok s1 h1 => ?_
  obtain ⟨hm, -, hnf⟩ := h1
  cases ok with
  | false =>
    refine ⟨rfl, fun h => ?_⟩
    rw [FileSys.data_congr hm.get_self]
    exact h.resolve_left fun hc => Bool.false_ne_true (hnf hf hc)
  | true =>
    have hmiss1 : s1.data (backupP ++ p) = none := by rw [FileSys.data_congr (makes_backup hm), hmiss]
    refine WP.ends (copyFile_missing_wp hf (backupP_valid.append hv) (by simp [hne]) hv hne hl' hmiss1
      (hm.get_self ▸ hd)) fun ok s' h => ⟨h.1, fun _ => ?_⟩
    exact FileSys.data_eq_none.mpr fun b hb => by rw [h.2] at hb; cases hb

/-- One record: its path gets its old contents back. -/
theorem rollbackLine_wp (r : Rec) : Sys.WP v (rollbackLine r.line) s
      (fun ok s' => Pokes r.path s s' ∧ (ok = true → s'.data r.path = r.old s) ∧
        (v.faults = false → (r.saved = true → s.data (backupP ++ r.path) ≠ none) → Clear s r.path →
          s.get r.path ≠ some .dir → ok = true)) (fun o s' => Pokes r.path s s' ∧ WritesTo r.path o) := by
  rw [rollbackLine_eq]
  exact undoTarget_wp r.good.valid r.good.ne_nil r.good.short

/-- Without faults, a record whose backup is missing removes its path. -/
theorem rollbackLine_missing_wp {r : Rec} (hv : v.faults = false) (hr : r.saved = true)
    (hmiss : s.data (backupP ++ r.path) = none) (hc : Clear s r.path) (hd : s.get r.path ≠ some .dir) :
    Sys.Ends v (rollbackLine r.line) s (fun ok s' => ok = false ∧ s'.data r.path = none) := by
  rw [rollbackLine_eq, hr]
  exact WP.post (undoTarget_missing_wp hv r.good.valid r.good.ne_nil r.good.short hmiss hd)
    (fun ok s' h => ⟨h.1, h.2 (.inl hc)⟩)

theorem forLines_append (f : Bytes → Sys Bool) (as bs : List Bytes) :
    forLines f (as ++ bs) = forLines f as >>= fun ok => if ok = true then forLines f bs else pure false := by
  induction as with
  | nil => rfl
  | cons a as ih =>
    simp only [cons_append, forLines, ih, Prog.bind_assoc]
    refine congrArg _ (funext fun ok => ?_)
    split <;> rfl

/-- Replaying some of the records: a run of the code is a `replay` of the undo
log, record by record. -/
theorem forRecs_wp {rs : List Rec} (h : Logged orig recs tail s) (hrs : ∀ r ∈ rs, r ∈ recs) :
    Sys.WP v (forLines rollbackLine (rs.map Rec.line)) s
      (fun ok s' => Logged orig recs tail s' ∧ SameBut Outside s s' ∧
        (ok = true → rootFiles s' = UndoLog.replay (rs.map (Rec.entry s)) (rootFiles s)) ∧
        (v.faults = false → ok = true))
      (fun o s' => Logged orig recs tail s' ∧ SameBut Outside s s' ∧ SparesJournal o) := by
  induction rs generalizing s with
  | nil => exact ⟨h, .refl _ s, fun _ => rfl, fun _ => rfl⟩
  | cons r rs ih =>
    have hr := hrs r mem_cons_self
    refine WP.bind (rollbackLine_wp r) (fun ok s1 ⟨hp, hok, hnf⟩ => ?_) fun o s' ⟨hp, ho⟩ =>
      ⟨h.poke hr hp, pokes_outside hp r.good.outside, ho.sparesJournal r.good.valid r.ne_journal⟩
    have h1 := h.poke hr hp
    have hs1 := pokes_outside hp r.good.outside
    have hnf : v.faults = false → ok = true := fun hf => hnf hf (h.saved r hr) (h.clear r hr).1 (h.clear r hr).2
    cases ok with
    | false => exact ⟨h1, hs1, by simp, hnf⟩
    | true =>
      refine WP.mono (ih h1 fun r' hr' => hrs r' (mem_cons_of_mem _ hr'))
        (fun ok s' ⟨h', hs', hroot, hnf'⟩ => ⟨h', hs1.trans hs', fun e => ?_, hnf'⟩)
        fun o s' ⟨h', hs', ho⟩ => ⟨h', hs1.trans hs', ho⟩
      have hrestore : rootFiles s1 = UndoLog.restore (rootFiles s) (r.entry s) := by
        funext q
        by_cases hq : q = r.path
        · subst hq
          rw [UndoLog.restore, Rec.entry, Function.update_self, rootFiles_outside r.good.outside]
          exact hok rfl
        · rw [UndoLog.restore, Rec.entry, Function.update_of_ne hq]
          unfold rootFiles
          rw [hp.data_eq hq]
      rw [hroot e, hrestore, Rec.entry_congr hs1]
      rfl

/-- Only recorded paths differ, and directories above them that were missing. -/
def Replayed (rs : List Rec) (s s' : FileSys) : Prop :=
  ∀ p, (∀ r ∈ rs, r.path ≠ p) →
    s'.get p = s.get p ∨ (∃ r ∈ rs, p ∈ ancestors r.path) ∧ s.get p = none ∧ s'.get p = some .dir

theorem Replayed.refl (rs : List Rec) (s : FileSys) : Replayed rs s s := fun _ _ => .inl rfl

theorem Replayed.data_eq {rs : List Rec} (h : Replayed rs s s') (hp : ∀ r ∈ rs, r.path ≠ p) :
    s'.data p = s.data p := by
  rcases h p hp with e | ⟨-, hn, hd⟩
  · exact FileSys.data_congr e
  · simp only [FileSys.data, hn, hd]

theorem Replayed.get_dir {rs : List Rec} (h : Replayed rs s s') (hp : ∀ r ∈ rs, r.path ≠ p)
    (hd : s.get p = some .dir) : s'.get p = some .dir := by
  rcases h p hp with e | ⟨-, -, hd'⟩
  · rw [e, hd]
  · exact hd'

/-- Whatever the records say, replaying them changes little else. -/
theorem forRecs_frame_wp (rs : List Rec) : Sys.WP v (forLines rollbackLine (rs.map Rec.line)) s
      (fun _ s' => SameBut Outside s s' ∧ Replayed rs s s') (fun o _ => SparesJournal o) := by
  induction rs generalizing s with
  | nil => exact ⟨.refl _ s, .refl _ s⟩
  | cons r rs ih =>
    refine WP.bind (rollbackLine_wp r) (fun ok s1 h1 => ?_)
      fun o s' h => h.2.sparesJournal r.good.valid r.ne_journal
    have hs1 := pokes_outside h1.1 r.good.outside
    have hone : ∀ p, r.path ≠ p →
        s1.get p = s.get p ∨ p ∈ ancestors r.path ∧ s.get p = none ∧ s1.get p = some .dir := fun p hp =>
      h1.1.other p hp.symm
    cases ok with
    | false =>
      refine ⟨hs1, fun p hp => (hone p (hp r mem_cons_self)).imp_right fun h => ?_⟩
      exact ⟨⟨r, mem_cons_self, h.1⟩, h.2⟩
    | true =>
      refine WP.post ih (fun ok s' h => ⟨hs1.trans h.1, fun p hp => ?_⟩)
      have hthis := hone p (hp r mem_cons_self)
      have hrest := h.2 p fun r' hr' => hp r' (mem_cons_of_mem _ hr')
      rcases hthis with e | ⟨ha, hn, hd⟩ <;> rcases hrest with e' | ⟨⟨r', hr', ha'⟩, hn', hd'⟩
      · exact .inl (e'.trans e)
      · exact .inr ⟨⟨r', mem_cons_of_mem _ hr', ha'⟩, e ▸ hn', hd'⟩
      · exact .inr ⟨⟨r, mem_cons_self, ha⟩, hn, e'.trans hd⟩
      · rw [hd] at hn'; cases hn'

/-- The last line of a journal. -/
theorem lastLine_wp {line : Bytes} {Q : FileSys → Prop}
    (h : Sys.Ends v (rollbackLine line) s (fun _ s' => Q s')) :
    Sys.Ends v (do
      if ← forLines rollbackLine [line] then do
        Sys.sync
        pure true
      else pure false) s (fun _ s' => Q s') := by
  have hone : Sys.Ends v (forLines rollbackLine [line]) s (fun _ s' => Q s') := by
    refine WP.seq h (fun ok s1 h1 => ?_)
    cases ok <;> exact h1
  refine WP.seq hone (fun ok s1 h1 => ?_)
  cases ok with
  | false => exact h1
  | true => exact Sys.WP.sync trivial h1

/-- A rollback over any records, and then over what there is in the tail. -/
theorem rollback_frame_wp {Q : Bool → FileSys → Prop} (h : s.get journalP = some (.file (encode recs ++ tail)))
    (hfail : ∀ s', SameBut Outside s s' → Replayed recs s s' → Q false s')
    (htail : ∀ s', SameBut Outside s s' → Replayed recs s s' →
      Sys.Ends v (do
        if ← forLines rollbackLine (fgetsLines (txnPathMax + 4) [] tail) then do
          Sys.sync
          pure true
        else pure false) s' Q) : Sys.Ends v rollback s Q := by
  have hstat : s.stat (resolve txnJournal) = .ok (.file (encode recs ++ tail)) := by
    exact FileSys.stat_file h
  refine Sys.WP.openRead trivial fun r hr => ?_
  rcases hr with hr | ⟨-, hr⟩
  · rw [hstat] at hr
    subst hr
    change Sys.WP v (forLines rollbackLine (fgetsLines (txnPathMax + 4) [] (encode recs ++ tail)) >>=
      fun ok => if ok = true then Sys.sync >>= fun _ => pure true else pure false) s _ _
    rw [lines_encode, forLines_append, Prog.bind_assoc]
    refine WP.thenEnds (forRecs_frame_wp recs) fun ok s1 h1 => ?_
    cases ok with
    | false => exact hfail s1 h1.1 h1.2
    | true => exact htail s1 h1.1 h1.2
  · subst hr
    exact hfail s (.refl _ s) (.refl _ s)

/-- A rollback: first the records, then what there is in the tail. -/
theorem rollback_tail_wp {Q : Bool → FileSys → Prop} {C : Op → FileSys → Prop} (h : Logged orig recs tail s)
    (hC : ∀ o s', Logged orig recs tail s' → SameBut Outside s s' → SparesJournal o → C o s')
    (hfail : ∀ s', Logged orig recs tail s' → SameBut Outside s s' → v.faults = true → Q false s')
    (htail : ∀ s', Logged orig recs tail s' → SameBut Outside s s' → rootFiles s' = orig → Replayed recs s s' →
      Sys.WP v (do
        if ← forLines rollbackLine (fgetsLines (txnPathMax + 4) [] tail) then do
          Sys.sync
          pure true
        else pure false) s' Q C) :
    Sys.WP v rollback s Q C := by
  have hstat : s.stat (resolve txnJournal) = .ok (.file (encode recs ++ tail)) := by
    exact FileSys.stat_file h.journal
  refine Sys.WP.openRead (hC _ s h (.refl _ s) (Quiet.openRead _).sparesJournal) fun r hr => ?_
  rcases hr with hr | ⟨hf, hr⟩
  · rw [hstat] at hr
    subst hr
    change Sys.WP v (forLines rollbackLine (fgetsLines (txnPathMax + 4) [] (encode recs ++ tail)) >>=
      fun ok => if ok = true then Sys.sync >>= fun _ => pure true else pure false) s _ _
    rw [lines_encode, forLines_append, Prog.bind_assoc]
    refine WP.bind ((forRecs_wp h fun _ hr => hr).and (forRecs_frame_wp recs)) (fun ok s1 hrun => ?_)
      fun o s' hcut => hC o s' hcut.1.1 hcut.1.2.1 hcut.1.2.2
    obtain ⟨⟨h1, hs1, hroot, hnf⟩, -, hframe⟩ := hrun
    cases ok with
    | false =>
      refine hfail s1 h1 hs1 (by_contra fun hf => ?_)
      exact Bool.false_ne_true (hnf (Bool.not_eq_true _ ▸ hf))
    | true => exact htail s1 h1 hs1 ((hroot rfl).trans h.undo.replay_eq) hframe
  · subst hr
    exact hfail s h (.refl _ s) hf

/-- A rollback over a whole journal. -/
theorem rollback_wp (h : Logged orig recs [] s) : Sys.WP v rollback s
      (fun ok s' => Logged orig recs [] s' ∧ SameBut Outside s s' ∧ (ok = true → rootFiles s' = orig) ∧
        (v.faults = false → ok = true))
      (fun o s' => Logged orig recs [] s' ∧ SameBut Outside s s' ∧ SparesJournal o) := by
  refine rollback_tail_wp h (fun o s' h' hs' ho => ⟨h', hs', ho⟩) (fun s' h' hs' hf => ?_)
    fun s' h' hs' hroot _ => ?_
  · exact ⟨h', hs', by simp, fun hnf => by rw [hnf] at hf; cases hf⟩
  · exact Sys.WP.sync ⟨h', hs', Quiet.sync.sparesJournal⟩ ⟨h', hs', fun _ => hroot, fun _ => rfl⟩

/-- There is no journal, or it is empty. -/
def NoRecords (s : FileSys) : Prop := s.get journalP = none ∨ s.get journalP = some (.file [])

instance (s : FileSys) : Decidable (NoRecords s) := inferInstanceAs (Decidable (_ ∨ _))

/-- Without records a rollback does nothing. -/
theorem rollback_noRecords_wp (hj : NoRecords s) (hc : Clear s journalP) :
    Sys.WP v rollback s (fun ok s' => s' = s ∧ (v.faults = false → ok = true)) (fun o s' => s' = s ∧ Quiet o) := by
  refine Sys.WP.openRead ⟨rfl, .openRead _⟩ fun r hr => ?_
  rw [txnJournal_eq, resolve_absStr journalP_valid (by decide)] at hr
  rcases hr with rfl | ⟨hf, rfl⟩
  · rcases hj with hj | hj
    · rw [FileSys.stat_none hj hc]
      exact ⟨rfl, fun _ => rfl⟩
    · rw [FileSys.stat_file hj]
      exact ⟨⟨rfl, .sync⟩, fun _ _ => ⟨rfl, fun _ => rfl⟩⟩
  · exact ⟨rfl, fun h => by rw [h] at hf; cases hf⟩

end Lorica.Proof.Herald

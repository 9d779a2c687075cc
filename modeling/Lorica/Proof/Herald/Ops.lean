import Lorica.Impl.Herald.Transaction

/-!
# herald: the operations that the programs make

Whatever they read, a copy writes at its destination only (`uses_copyFile`), a
rollback renames nothing and removes no directory (`uses_rollback`), and a removal
looks and removes (`uses_removeTree`).
-/

namespace Lorica.Proof.Herald

open Lorica.Impl.Herald Posix

/-- The operations of `copy_file`. -/
inductive CopyOp (dst : Bytes) : Op → Prop
  | openRead (path : Bytes) : CopyOp dst (.openRead path)
  | mkdir (path : Bytes) : CopyOp dst (.call (.mkdir path))
  | openTrunc : CopyOp dst (.call (.openTrunc dst))
  | write (bs : Bytes) : CopyOp dst (.write dst bs)
  | fsync : CopyOp dst (.fsync dst)
  | close : CopyOp dst (.close dst)
  | unlink : CopyOp dst (.call (.unlink dst))

variable {P : Op → Prop} {T : Path → Prop}

section

variable (hP : ∀ path, P (.call (.mkdir path)))

include hP

theorem uses_mkdirAll (ds : List Bytes) : Uses P (mkdirAll ds) := by
  induction ds with
  | nil => exact .pure _
  | cons d ds ih =>
    refine .bind (.call (hP d)) fun r => ?_
    split
    · exact ih
    · exact ih
    · exact .pure _

theorem uses_mkdirP (path : Bytes) : Uses P (mkdirP path) := by
  unfold mkdirP
  split
  · exact .pure _
  · exact uses_mkdirAll hP _

theorem uses_parentDirs (path : Bytes) : Uses P (parentDirs path) := by
  unfold parentDirs
  split
  · exact .pure _
  · split
    · exact .pure _
    · exact uses_mkdirP hP _

end

theorem uses_writeAll (dst : Bytes) (n : Nat) (bs : Bytes) : Uses (CopyOp dst) (writeAll dst n bs) := by
  induction n generalizing bs with
  | zero => exact .pure _
  | succ n ih =>
    rw [writeAll]
    split
    · exact .pure _
    · refine .bind (.call (.write bs)) fun r => ?_
      split
      · split
        · exact .pure _
        · exact ih _
      · exact .pure _

theorem uses_copyLoop (dst : Bytes) (n : Nat) (bs : Bytes) : Uses (CopyOp dst) (copyLoop dst n bs) := by
  induction n generalizing bs with
  | zero => exact .pure _
  | succ n ih =>
    rw [copyLoop]
    split
    · exact .pure _
    · refine .bind (uses_writeAll _ _ _) fun ok => ?_
      split
      · exact ih _
      · exact .pure _

theorem uses_copyFile (src dst : Bytes) : Uses (CopyOp dst) (copyFile src dst) := by
  have hdata : ∀ node, Uses (CopyOp dst) (copyData dst node) := fun node => by
    cases node with
    | dir => exact .pure _
    | file data =>
      refine .bind (uses_copyLoop _ _ _) fun ok => ?_
      split
      · exact .call .fsync
      · exact .pure _
  have hbody : Uses (CopyOp dst) (copyBody src dst) := by
    refine .bind (.call (.openRead src)) fun r => ?_
    split
    · exact .pure _
    · refine .bind (uses_parentDirs .mkdir _) fun ok => ?_
      split
      · refine .bind (.call .openTrunc) fun r => ?_
        split
        · exact .pure _
        · exact .bind (hdata _) fun rc => .bind (.call .close) fun closed => .pure _
      · exact .pure _
  refine .bind hbody fun ok => ?_
  split
  · exact .pure _
  · exact .bind (.call .unlink) fun _ => .pure _

theorem CopyOp.spares {dst : Bytes} {o : Op} (hd : ¬ T (resolve dst).path) (h : CopyOp dst o) : Spares T o := by
  cases h <;> first | exact hd | trivial

theorem uses_writeFull {path bs : Bytes} (h : ¬ T (resolve path).path) : Uses (Spares T) (writeFull path bs) := by
  refine .bind (.call h) fun r => ?_
  split <;> exact .pure _

/-- `write_state` makes the state file and its temporary one. -/
theorem uses_writeState (htmp : ¬ T (resolve stateTmp).path) (hstate : ¬ T (resolve txnState).path)
    (state : Bytes) : Uses (Spares T) (writeState state) := by
  have hdrop : Uses (Spares T) (do let _ ← Sys.unlink stateTmp; pure false) := .bind (.call trivial) fun _ => .pure _
  have hwritten : Uses (Spares T) (writeStateTmp state) := by
    refine .bind (.bind (uses_writeFull htmp) fun ok => ?_) fun _ => .bind (.call trivial) fun _ => .pure _
    split
    · refine .bind (uses_writeFull htmp) fun ok => ?_
      split
      · exact .call trivial
      · exact .pure _
    · exact .pure _
  refine .bind (uses_mkdirP (fun _ => trivial) _) fun ok => ?_
  split
  · refine .bind (.call htmp) fun r => ?_
    split
    · exact .pure _
    · refine .bind hwritten fun ok => ?_
      split
      · refine .bind (.call hstate) fun r => ?_
        split
        · exact .bind (.call trivial) fun _ => .pure _
        · exact hdrop
      · exact hdrop
  · exact .pure _

/-- No rename. -/
def NoRename (o : Op) : Prop := ∀ src dst, o ≠ .call (.rename src dst)

/-- No rename, and no directory is removed. -/
structure UndoOp (o : Op) : Prop where
  sparesDirs : SparesDirs o
  noRename : NoRename o

theorem CopyOp.undoOp {dst : Bytes} {o : Op} (h : CopyOp dst o) : UndoOp o := by
  cases h <;> exact ⟨nofun, nofun⟩

theorem uses_unlinkGone (path : Bytes) : Uses UndoOp (unlinkGone path) := by
  refine .bind (.call ⟨nofun, nofun⟩) fun r => ?_
  split <;> exact .pure _

theorem uses_rollbackLine (line : Bytes) : Uses UndoOp (rollbackLine line) := by
  unfold rollbackLine
  simp only
  split
  · exact .pure _
  · split
    · exact uses_unlinkGone _
    · split
      · exact .pure _
      · refine .bind (uses_parentDirs (fun _ => ⟨nofun, nofun⟩) _) fun ok => ?_
        split
        · exact (uses_copyFile _ _).mono fun _ => CopyOp.undoOp
        · exact .pure _

theorem uses_forLines {f : Bytes → Sys Bool} (hf : ∀ l, Uses P (f l)) (ls : List Bytes) :
    Uses P (forLines f ls) := by
  induction ls with
  | nil => exact .pure _
  | cons l ls ih =>
    refine .bind (hf l) fun ok => ?_
    split
    · exact ih
    · exact .pure _

theorem uses_rollback : Uses UndoOp rollback := by
  refine .bind (.call ⟨nofun, nofun⟩) fun r => ?_
  split
  · exact .pure _
  · refine .bind (uses_forLines uses_rollbackLine _) fun ok => ?_
    split
    · exact .bind (.call ⟨nofun, nofun⟩) fun _ => .pure _
    · exact .pure _

/-- The operations of `remove_tree`. -/
inductive RemoveOp : Op → Prop
  | readdir (path : Bytes) : RemoveOp (.readdir path)
  | lstat (path : Bytes) : RemoveOp (.lstat path)
  | unlink (path : Bytes) : RemoveOp (.call (.unlink path))
  | rmdir (path : Bytes) : RemoveOp (.call (.rmdir path))

theorem RemoveOp.noRename {o : Op} (h : RemoveOp o) : NoRename o := by
  cases h <;> nofun

theorem RemoveOp.spares {o : Op} (h : RemoveOp o) : Spares T o := by
  cases h <;> trivial

theorem uses_removeTree (fuel : Nat) (path : Bytes) : Uses RemoveOp (removeTree fuel path) := by
  induction fuel generalizing path with
  | zero => exact .pure _
  | succ fuel ih =>
    have hentries : ∀ ns, Uses RemoveOp (removeEntries (removeTree fuel) path ns) := fun ns => by
      induction ns with
      | nil => exact .pure _
      | cons n ns ihns =>
        unfold removeEntries
        simp only
        split
        · exact .pure _
        · refine .bind (.call (.lstat _)) fun r => ?_
          split
          · exact .pure _
          · refine .bind (ih _) fun ok => ?_
            split
            · exact ihns
            · exact .pure _
          · refine .bind (.call (.unlink _)) fun r => ?_
            split
            · exact ihns
            · exact .pure _
    refine .bind (.call (.readdir _)) fun r => ?_
    split
    · exact .pure _
    · refine .bind (hentries _) fun ok => ?_
      split
      · refine .bind (.call (.rmdir _)) fun r => ?_
        split <;> exact .pure _
      · exact .pure _

end Lorica.Proof.Herald

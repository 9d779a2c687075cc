import Lorica.Framework.CString
import Lorica.Framework.Posix

/-!
# herald: `transaction.c`

One crash-recoverable transaction on the root file system. New files are staged
below `stage`, paths to delete are queued in `delete`; `txn_commit` backs every
target up, journals it and then moves or unlinks it, and the state file says how
far it got, for `txn_recover`.

A function that returns 0 or -1 is a `Bool` here, `true` for 0; `txn_recover`
keeps its number. Loops over what is read from a directory or a file are over
the list of names or lines; recursion into directories is on `fuel`, since a
path name of `TXN_PATH_MAX` bytes or more ends it. A call interrupted by a
signal (`EINTR`) is made again and is not seen here, nor are file modes.
-/

namespace Lorica.Impl.Herald

def heraldDbDir : Bytes := ascii "/etc/aegis/herald"
def heraldDbPath : Bytes := heraldDbDir ++ ascii "/db"
def heraldTxnDir : Bytes := heraldDbDir ++ ascii "/transaction"
def heraldTxnStage : Bytes := heraldTxnDir ++ ascii "/stage"
def heraldUpdatePending : Bytes := ascii "/etc/aegis/update/pending"

def txnBackup : Bytes := heraldTxnDir ++ ascii "/backup"
def txnState : Bytes := heraldTxnDir ++ ascii "/state"
def txnJournal : Bytes := heraldTxnDir ++ ascii "/journal"
def txnDelete : Bytes := heraldTxnDir ++ ascii "/delete"
def txnPathMax : Nat := 768

/-! ## Directories -/

/-- `path` cut before each `/` but a first one. -/
def slashCuts (acc : Bytes) : Bytes → List Bytes
  | [] => []
  | b :: bs =>
    if b = slash ∧ acc ≠ [] then acc :: slashCuts (acc ++ [b]) bs else slashCuts (acc ++ [b]) bs

/-- Make each directory of a list, unless it is there. -/
def mkdirAll : List Bytes → Sys Bool
  | [] => pure true
  | d :: ds => do
    match ← Sys.mkdir d with
    | .ok () => mkdirAll ds
    | .error .EEXIST => mkdirAll ds
    | .error _ => pure false

/-- `mkdir_p`. -/
def mkdirP (path : Bytes) : Sys Bool :=
  if path.length ≥ txnPathMax then pure false else mkdirAll (slashCuts [] path ++ [path])

/-- What stands before the last `/` of a path name. -/
def dirPart (path : Bytes) : Bytes := ((path.reverse.dropWhile (· ≠ slash)).drop 1).reverse

/-- `parent_dirs`. -/
def parentDirs (path : Bytes) : Sys Bool :=
  if path.length ≥ txnPathMax then pure false
  else if dirPart path = [] then pure true
  else mkdirP (dirPart path)

/-- The components that `safe_rel` looks at; it stops before an empty last one. -/
def safeComponents : List Bytes → Bool
  | [] => true
  | [c] => decide (c ≠ dot ∧ c ≠ dotdot)
  | c :: cs => decide (c ≠ [] ∧ c ≠ dot ∧ c ≠ dotdot) && safeComponents cs

/-- `safe_rel`. -/
def safeRel (path : Bytes) : Bool :=
  decide (path ≠ [] ∧ path.head? ≠ some slash) && safeComponents (path.splitOn slash)

/-- `txn_stage_path`. -/
def txnStagePath (size : Nat) (path : Bytes) : Option Bytes :=
  if safeRel path = true ∧ (heraldTxnStage ++ slash :: path).length < size then
    some (heraldTxnStage ++ slash :: path)
  else none

/-! ## Copying and removing -/

/-- The inner loop of `copy_file`: write a buffer, however short the writes. -/
def writeAll (path : Bytes) : Nat → Bytes → Sys Bool
  | 0, bs => pure (decide (bs = []))
  | n + 1, bs =>
    if bs = [] then pure true
    else do
      match ← Sys.write path bs with
      | .ok w => if w = 0 then pure false else writeAll path n (bs.drop w)
      | .error _ => pure false

/-- The outer loop of `copy_file`, a buffer at a time. -/
def copyLoop (path : Bytes) : Nat → Bytes → Sys Bool
  | 0, bs => pure (decide (bs = []))
  | n + 1, bs =>
    if bs = [] then pure true
    else do
      if ← writeAll path (bs.take 16384).length (bs.take 16384) then copyLoop path n (bs.drop 16384)
      else pure false

/-- Reading the open source and writing the open destination. -/
def copyData (path : Bytes) : Node → Sys Bool
  | .dir => pure false
  | .file data => do
    if ← copyLoop path data.length data then Sys.fsync path else pure false

/-- `copy_file` up to its label `done`. -/
def copyBody (src dst : Bytes) : Sys Bool := do
  match ← Sys.openRead src with
  | .error _ => pure false
  | .ok node =>
    if ← parentDirs dst then
      match ← Sys.openTrunc dst with
      | .error _ => pure false
      | .ok () =>
        let rc ← copyData dst node
        let closed ← Sys.close dst
        pure (rc && closed)
    else pure false

/-- On any failure the destination is unlinked, also when the source could not
be opened. -/
def copyFile (src dst : Bytes) : Sys Bool := do
  if ← copyBody src dst then pure true
  else do
    let _ ← Sys.unlink dst
    pure false

/-- The loop of `remove_tree` over the names of one directory. -/
def removeEntries (removeTree : Bytes → Sys Bool) (path : Bytes) : List Name → Sys Bool
  | [] => pure true
  | n :: ns =>
    let child := path ++ slash :: n
    if child.length ≥ txnPathMax then pure false
    else do
      match ← Sys.lstat child with
      | .error _ => pure false
      | .ok .dir => if ← removeTree child then removeEntries removeTree path ns else pure false
      | .ok (.file _) =>
        match ← Sys.unlink child with
        | .ok () => removeEntries removeTree path ns
        | .error _ => pure false

/-- `remove_tree`. -/
def removeTree : Nat → Bytes → Sys Bool
  | 0, _ => pure false
  | fuel + 1, path => do
    match ← Sys.readdir path with
    | .error e => pure (decide (e = .ENOENT))
    | .ok names =>
      if ← removeEntries (removeTree fuel) path names then
        match ← Sys.rmdir path with
        | .ok () => pure true
        | .error e => pure (decide (e = .ENOENT))
      else pure false

/-! ## State file and journal -/

def stateTmp : Bytes := txnState ++ ascii ".tmp"

/-- Write one buffer, or report a failure. -/
def writeFull (path bs : Bytes) : Sys Bool := do
  match ← Sys.write path bs with
  | .ok w => pure (decide (w = bs.length))
  | .error _ => pure false

/-- Write a line and flush it. -/
def writeLine (path bs : Bytes) : Sys Bool := do
  if ← writeFull path bs then
    if ← writeFull path [newline] then Sys.fsync path else pure false
  else pure false

def writeStateTmp (state : Bytes) : Sys Bool := do
  let written ← writeLine stateTmp state
  let closed ← Sys.close stateTmp
  pure (written && closed)

/-- `write_state`. -/
def writeState (state : Bytes) : Sys Bool := do
  if ← mkdirP heraldTxnDir then
    match ← Sys.openTrunc stateTmp with
    | .error _ => pure false
    | .ok () =>
      if ← writeStateTmp state then
        match ← Sys.rename stateTmp txnState with
        | .ok () => do
          Sys.sync
          pure true
        | .error _ => do
          let _ ← Sys.unlink stateTmp
          pure false
      else do
        let _ ← Sys.unlink stateTmp
        pure false
  else pure false

/-- `R` and `N`: a target that was there and is backed up, a target that is new. -/
def opReplaced : UInt8 := 82
def opNew : UInt8 := 78

/-- A record of the journal. -/
def journalLine (op : UInt8) (path : Bytes) : Bytes := op :: tab :: (path ++ [newline])

/-- `journal`. -/
def journal (op : UInt8) (path : Bytes) : Sys Bool :=
  if (journalLine op path).length ≥ txnPathMax + 4 then pure false
  else do
    if ← writeFull txnJournal (journalLine op path) then Sys.fsync txnJournal else pure false

/-! ## Applying -/

/-- `prepare_target`. -/
def prepareTarget (rel : Bytes) : Sys Bool :=
  let dst := slash :: rel
  let bak := txnBackup ++ slash :: rel
  if safeRel rel = false ∨ dst.length ≥ txnPathMax ∨ bak.length ≥ txnPathMax then pure false
  else do
    match ← Sys.lstat dst with
    | .ok (.file _) =>
      if ← copyFile dst bak then
        if ← journal opReplaced rel then parentDirs dst else pure false
      else pure false
    | .ok .dir => pure false
    | .error .ENOENT => if ← journal opNew rel then parentDirs dst else pure false
    | .error _ => pure false

/-- `apply_delete`. -/
def applyDelete (rel : Bytes) : Sys Bool :=
  let dst := slash :: rel
  if safeRel rel = false ∨ dst.length ≥ txnPathMax then pure false
  else do
    match ← Sys.lstat dst with
    | .error e => pure (decide (e = .ENOENT))
    | .ok .dir => pure false
    | .ok (.file _) =>
      if ← prepareTarget rel then
        match ← Sys.unlink dst with
        | .ok () => pure true
        | .error _ => pure false
      else pure false

/-- The name of a staged entry relative to the root. -/
def relJoin (relbase : Bytes) (name : Name) : Bytes :=
  if relbase = [] then name else relbase ++ slash :: name

/-- A staged file: prepare its target and rename it into place. -/
def moveTarget (src rel : Bytes) : Sys Bool := do
  if ← prepareTarget rel then
    if (slash :: rel).length ≥ txnPathMax then pure false
    else do
      match ← Sys.rename src (slash :: rel) with
      | .ok () => pure true
      | .error _ => pure false
  else pure false

/-- The loop of `apply_stage_dir` over the names of one directory. -/
def applyStageEntries (applyStageDir : Bytes → Bytes → Sys Bool) (dir relbase : Bytes) :
    List Name → Sys Bool
  | [] => pure true
  | n :: ns =>
    let src := dir ++ slash :: n
    let rel := relJoin relbase n
    if src.length ≥ txnPathMax ∨ rel.length ≥ txnPathMax then pure false
    else do
      match ← Sys.lstat src with
      | .error _ => pure false
      | .ok .dir =>
        if ← applyStageDir src rel then applyStageEntries applyStageDir dir relbase ns else pure false
      | .ok (.file _) =>
        if ← moveTarget src rel then applyStageEntries applyStageDir dir relbase ns else pure false

/-- `apply_stage_dir`. -/
def applyStageDir : Nat → Bytes → Bytes → Sys Bool
  | 0, _, _ => pure false
  | fuel + 1, dir, relbase => do
    match ← Sys.readdir dir with
    | .error _ => pure false
    | .ok names => applyStageEntries (applyStageDir fuel) dir relbase names

/-! ## Rolling back and recovering -/

/-- `unlink`, which need not find the file. -/
def unlinkGone (path : Bytes) : Sys Bool := do
  match ← Sys.unlink path with
  | .ok () => pure true
  | .error e => pure (decide (e = .ENOENT))

/-- One line of the journal, as `rollback` reads it. -/
def rollbackLine (line : Bytes) : Sys Bool :=
  let l := cstr line
  let rel := (l.drop 2).takeWhile (· ≠ newline)
  let dst := slash :: rel
  let bak := txnBackup ++ slash :: rel
  if (l.head? ≠ some opReplaced ∧ l.head? ≠ some opNew) ∨ l[1]? ≠ some tab ∨ safeRel rel = false ∨
      dst.length ≥ txnPathMax then pure false
  else if l.head? = some opNew then unlinkGone dst
  else if bak.length ≥ txnPathMax then pure false
  else do
    if ← parentDirs dst then copyFile bak dst else pure false

/-- Call `f` on each line until one fails. -/
def forLines (f : Bytes → Sys Bool) : List Bytes → Sys Bool
  | [] => pure true
  | l :: ls => do
    if ← f l then forLines f ls else pure false

/-- The contents of an open file; a directory can be opened, but gives nothing. -/
def contents : Node → Bytes
  | .file b => b
  | .dir => []

/-- `rollback`. -/
def rollback : Sys Bool := do
  match ← Sys.openRead txnJournal with
  | .error e => pure (decide (e = .ENOENT))
  | .ok node =>
    if ← forLines rollbackLine (fgetsLines (txnPathMax + 4) [] (contents node)) then do
      Sys.sync
      pure true
    else pure false

def statePrepared : Bytes := ascii "prepared"
def stateApplying : Bytes := ascii "applying"
def statePending : Bytes := ascii "pending-kernel"
def stateCommitted : Bytes := ascii "committed"

/-- The state that is read from the state file: its first line, if there is one. -/
def stateLine (node : Node) : Option Bytes := ((fgetsLines 32 [] (contents node)).head?).map cstr

/-- `txn_recover`. -/
def txnRecover : Sys Int := do
  match ← Sys.openRead txnState with
  | .error e => pure (if e = .ENOENT then 0 else -1)
  | .ok node =>
    match stateLine node with
    | none => pure (-1)
    | some state =>
      if statePending.isPrefixOf state then pure 1
      else if stateCommitted.isPrefixOf state then do
        if ← unlinkGone heraldUpdatePending then do
          if ← removeTree txnPathMax heraldTxnDir then pure 0 else pure (-1)
        else pure (-1)
      else do
        if ← rollback then do
          if ← removeTree txnPathMax heraldTxnDir then pure 0 else pure (-1)
        else pure (-1)

/-- `txn_finalize` up to the removal of the transaction directory. -/
def finalizeHead : Sys Bool := do
  match ← Sys.openRead txnState with
  | .error _ => pure false
  | .ok node =>
    match stateLine node with
    | none => pure false
    | some state =>
      if statePending.isPrefixOf state then do
        if ← writeState stateCommitted then do
          if ← unlinkGone heraldUpdatePending then do
            Sys.sync
            pure true
          else pure false
        else pure false
      else pure false

/-- `txn_finalize`. -/
def txnFinalize : Sys Bool := do
  if ← finalizeHead then removeTree txnPathMax heraldTxnDir else pure false

/-- `txn_rollback`. -/
def txnRollback : Sys Bool := do
  if ← rollback then removeTree txnPathMax heraldTxnDir else pure false

/-! ## Beginning, staging and committing -/

/-- Create a file, or cut it to nothing, durably. -/
def createEmpty (path : Bytes) : Sys Bool := do
  match ← Sys.openTrunc path with
  | .error _ => pure false
  | .ok () =>
    if ← Sys.fsync path then Sys.close path else pure false

/-- `txn_stage_existing`. -/
def txnStageExisting (path : Bytes) : Sys Bool :=
  let src := slash :: path
  if safeRel path = false ∨ src.length ≥ txnPathMax then pure false
  else
    match txnStagePath txnPathMax path with
    | none => pure false
    | some dst => do
      match ← Sys.lstat src with
      | .error .ENOENT => parentDirs dst
      | .error _ => pure false
      | .ok .dir => pure false
      | .ok (.file _) => copyFile src dst

/-- `HERALD_DB_PATH + 1`. -/
def heraldDbRel : Bytes := heraldDbPath.drop 1

/-- `txn_begin`. -/
def txnBegin : Sys Bool := do
  if (← txnRecover) = 0 then
    if ← mkdirP heraldTxnStage then
      if ← mkdirP txnBackup then
        if ← writeState statePrepared then
          if ← createEmpty txnJournal then
            if ← createEmpty txnDelete then txnStageExisting heraldDbRel
            else pure false
          else pure false
        else pure false
      else pure false
    else pure false
  else pure false

/-- `txn_abort`. -/
def txnAbort : Sys Unit := do
  let _ ← txnRecover
  pure ()

/-- The part of `txn_commit` between opening the journal and the label `done`. -/
def commitBody (pending : Bool) : Sys Bool := do
  match ← Sys.openRead txnDelete with
  | .error _ => pure false
  | .ok node =>
    let deleted ← forLines (fun line => if chomp line = [] then pure true else applyDelete (chomp line))
      (fgetsLines txnPathMax [] (contents node))
    if deleted then
      if ← applyStageDir txnPathMax heraldTxnStage [] then do
        Sys.sync
        writeState (if pending then statePending else stateCommitted)
      else pure false
    else pure false

/-- `access(path, F_OK) == 0`. -/
def access (path : Bytes) : Sys Bool := do
  match ← Sys.lstat path with
  | .ok _ => pure true
  | .error _ => pure false

/-- `txn_commit`. -/
def txnCommit : Sys Bool := do
  let pending ← access (heraldTxnStage ++ heraldUpdatePending)
  if ← writeState stateApplying then
    match ← Sys.openAppend txnJournal with
    | .error _ => pure false
    | .ok () =>
      let rc ← commitBody pending
      let _ ← Sys.close txnJournal
      if rc then
        if pending then pure true
        else do
          let _ ← removeTree txnPathMax heraldTxnDir
          pure true
      else do
        let _ ← rollback
        pure false
  else pure false

/-! ## Owner lists and deletes -/

/-- The path of a package's owner list. -/
def ownerPath (id : Bytes) : Bytes := heraldDbDir ++ ascii "/owners/" ++ id ++ ascii ".list"

/-- Whether a line of an owner list is `path`. -/
def listed (list : Bytes) (path : Bytes) : Bool :=
  (fgetsLines txnPathMax [] list).any fun line => chomp line = path

/-- A path is appended to the delete file. -/
def queueDelete (path : Bytes) : Sys Bool :=
  if safeRel path = false then pure false
  else do
    match ← Sys.openAppend txnDelete with
    | .error _ => pure false
    | .ok () =>
      let written ← writeLine txnDelete path
      let closed ← Sys.close txnDelete
      pure (written && closed)

/-- `txn_remove_stale`. -/
def txnRemoveStale (id newOwnerPath : Bytes) : Sys Bool :=
  if slash ∈ id ∨ (ownerPath id).length ≥ txnPathMax then pure false
  else do
    match ← Sys.openRead (ownerPath id) with
    | .error e => pure (decide (e = .ENOENT))
    | .ok old =>
      match ← Sys.openRead newOwnerPath with
      | .error _ => pure false
      | .ok new =>
        forLines (fun line =>
            if chomp line = [] ∨ listed (contents new) (chomp line) = true then pure true
            else queueDelete (chomp line))
          (fgetsLines txnPathMax [] (contents old))

/-- `txn_remove_owned`. -/
def txnRemoveOwned (id : Bytes) : Sys Bool :=
  if slash ∈ id ∨ (ownerPath id).length ≥ txnPathMax then pure false
  else do
    match ← Sys.openRead (ownerPath id) with
    | .error e => pure (decide (e = .ENOENT))
    | .ok old =>
      let queued ← forLines
        (fun line => if chomp line = [] then pure true else queueDelete (chomp line))
        (fgetsLines txnPathMax [] (contents old))
      if queued then queueDelete ((ownerPath id).drop 1) else pure false

end Lorica.Impl.Herald

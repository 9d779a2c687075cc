import Lorica.Impl.Herald.Transaction

/-!
# herald: `db.c`

The database of installed packages: one line per package, its fields separated by
tabs. It is read and written as a whole, at a path that a transaction sets to its
staged copy.
-/

namespace Lorica.Impl.Herald

/-- What a lookup that returns a negative number, 0 or 1 finds. -/
inductive Found (α : Type)
  | error
  | absent
  | found (a : α)
deriving DecidableEq

/-- `herald_db_entry_t`. -/
structure DbEntry where
  id : Bytes
  version : Bytes
  exec : Bytes
  sha256 : Bytes
deriving DecidableEq

def heraldDbCap : Nat := 256

/-- `parse_line`: four fields that fit. -/
def parseLine (line : Bytes) : Option DbEntry :=
  if line = [] then none
  else
    match line.splitOn tab with
    | [id, version, exec, sha256] =>
      if 64 ≤ id.length ∨ 32 ≤ version.length ∨ 64 ≤ exec.length ∨ 65 ≤ sha256.length then none
      else some ⟨id, version, exec, sha256⟩
    | _ => none

/-- The loop of `db_load`: at most `max` entries; the rest of a line that does not
end in the buffer is skipped. -/
def dbLines : Nat → Nat → Bytes → List DbEntry
  | 0, _, _ => []
  | fuel + 1, max, bs =>
    let line := cstr (fgets 512 bs).1
    let rest := (fgets 512 bs).2
    if max = 0 ∨ bs = [] then []
    else if newline ∈ line then
      match parseLine ((line.takeWhile (· ≠ newline)).takeWhile (· ≠ cr)) with
      | some e => e :: dbLines fuel (max - 1) rest
      | none => dbLines fuel max rest
    else dbLines fuel max ((rest.dropWhile (· ≠ newline)).drop 1)

/-- The entries in a database file. -/
def dbEntries (max : Nat) (bs : Bytes) : List DbEntry := dbLines bs.length max bs

/-- `db_load`. -/
def dbLoad (dbPath : Bytes) (max : Nat) : Sys (Option (List DbEntry)) := do
  match ← Sys.openRead dbPath with
  | .error e => pure (if e = .ENOENT then some [] else none)
  | .ok node => pure (some (dbEntries max (contents node)))

/-- The entry of `id`. -/
def findId (id : Bytes) (es : List DbEntry) : Option DbEntry := es.find? (·.id = id)

/-- What `db_find` returns for what `db_load` has read. -/
def dbFound (id : Bytes) : Option (List DbEntry) → Found DbEntry
  | none => .error
  | some es =>
    match findId id es with
    | none => .absent
    | some e => .found e

/-- `db_find`. -/
def dbFind (dbPath id : Bytes) : Sys (Found DbEntry) := do
  let es ← dbLoad dbPath heraldDbCap
  pure (dbFound id es)

/-- Make each directory of a list; what cannot be made shows later. -/
def mkdirEach : List Bytes → Sys Unit
  | [] => pure ()
  | d :: ds => do
    let _ ← Sys.mkdir d
    mkdirEach ds

/-- The `mkdir_p` of `db.c`, `repo.c` and `main.c`, which reports nothing. -/
def mkdirQuiet (path : Bytes) : Sys Unit :=
  let tmp := path.take 255
  mkdirEach (slashCuts [] tmp ++ [tmp])

/-- The line of an entry. -/
def dbLine (e : DbEntry) : Bytes :=
  e.id ++ tab :: (e.version ++ tab :: (e.exec ++ tab :: (e.sha256 ++ [newline])))

/-- Write a buffer into an open file through `stdio`, and close it. -/
def writeClose (path bs : Bytes) : Sys Bool := do
  let written ← writeAll path bs.length bs
  let closed ← Sys.close path
  pure (written && closed)

/-- `db_write_all`. -/
def dbWriteAll (dbPath : Bytes) (es : List DbEntry) : Sys Bool :=
  let tmp := dbPath ++ ascii ".tmp"
  if slash ∉ dbPath ∨ 516 ≤ tmp.length then pure false
  else do
    mkdirQuiet (dirPart dbPath)
    match ← Sys.openTrunc tmp with
    | .error _ => pure false
    | .ok () =>
      if ← writeClose tmp (es.flatMap dbLine) then
        match ← Sys.rename tmp dbPath with
        | .ok () => pure true
        | .error _ => do
          let _ ← Sys.unlink tmp
          pure false
      else do
        let _ ← Sys.unlink tmp
        pure false

/-- Replace the entry of `e.id`, or put `e` at the end. -/
def putEntry (e : DbEntry) : List DbEntry → List DbEntry
  | [] => [e]
  | e' :: es => if e'.id = e.id then e :: es else e' :: putEntry e es

/-- `db_put`. -/
def dbPut (dbPath : Bytes) (e : DbEntry) : Sys Bool :=
  if e.id = [] then pure false
  else do
    match ← dbLoad dbPath heraldDbCap with
    | none => pure false
    | some es =>
      if heraldDbCap < (putEntry e es).length then pure false else dbWriteAll dbPath (putEntry e es)

/-- The number `db_remove` returns: 1 if there was no entry. -/
def dbRemove (dbPath id : Bytes) : Sys Int :=
  if id = [] then pure (-1)
  else do
    match ← dbLoad dbPath heraldDbCap with
    | none => pure (-1)
    | some es =>
      if findId id es = none then pure 1
      else do
        if ← dbWriteAll dbPath (es.filter (·.id ≠ id)) then pure 0 else pure (-1)

end Lorica.Impl.Herald

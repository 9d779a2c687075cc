import Lorica.Framework.CString

/-!
# herald: `manifest.c`

A manifest is lines `key=value`. A value with a control character is refused, and
so is an `id` or `exec` that is no name of a directory entry; values are cut to the
size of their field.
-/

namespace Lorica.Impl.Herald

/-- `manifest_is_bare_name`. -/
def manifestIsBareName (s : Bytes) : Bool := decide (s ≠ [] ∧ slash ∉ s ∧ s ≠ dot ∧ s ≠ dotdot)

/-- The policy of a further binary, `caps.<binary>=<caps>`. -/
structure Bincap where
  binary : Bytes
  caps : Bytes
deriving DecidableEq

/-- `herald_manifest_t`. -/
structure Manifest where
  id : Bytes
  name : Bytes
  version : Bytes
  exec : Bytes
  isSystem : Bool
  caps : Bytes
  depends : Bytes
  paths : Bytes
  bincaps : List Bincap
deriving DecidableEq

def Manifest.empty : Manifest := ⟨[], [], [], [], false, [], [], [], []⟩

def heraldMaxBincaps : Nat := 8

def isBlank (b : UInt8) : Bool := b = space || b = tab

/-- Without trailing carriage returns, spaces and tabs. -/
def rtrim (s : Bytes) : Bytes := (s.reverse.dropWhile fun b => b = cr || isBlank b).reverse

/-- Control characters. -/
def isControl (b : UInt8) : Bool := b < 32 || b = 127

def equals : UInt8 := 61

/-- The prefix of the keys `caps.<binary>`. -/
def capsDot : Bytes := ascii "caps."

/-- One `key=value`, without control characters. -/
def manifestField (m : Manifest) (key val : Bytes) : Option Manifest :=
  if key = ascii "id" then
    if manifestIsBareName val = true then some { m with id := val.take 63 } else none
  else if key = ascii "name" then some { m with name := val.take 63 }
  else if key = ascii "version" then some { m with version := val.take 31 }
  else if key = ascii "exec" then
    if manifestIsBareName val = true then some { m with exec := val.take 63 } else none
  else if key = ascii "caps" then some { m with caps := val.take 255 }
  else if capsDot.isPrefixOf key then
    let bin := key.drop capsDot.length
    -- a policy for no proper name, or one too many, is passed over
    if manifestIsBareName bin = true ∧ m.bincaps.length < heraldMaxBincaps then
      some { m with bincaps := m.bincaps ++ [⟨bin.take 63, val.take 255⟩] }
    else some m
  else if key = ascii "depends" then some { m with depends := val.take 255 }
  else if key = ascii "paths" then some { m with paths := val.take 255 }
  else if key = ascii "class" then some { m with isSystem := decide (val = ascii "system") }
  else some m

/-- One line. -/
def manifestLine (m : Manifest) (l : Bytes) : Option Manifest :=
  let line := rtrim (cstr (l.take 511))
  if line = [] ∨ line.head? = some 35 ∨ equals ∉ line then some m
  else
    let key := (rtrim (line.takeWhile (· ≠ equals))).dropWhile isBlank
    let val := (line.dropWhile (· ≠ equals)).drop 1
    if val.any isControl = true then none else manifestField m key val

def manifestLines : Manifest → List Bytes → Option Manifest
  | m, [] => some m
  | m, l :: ls =>
    match manifestLine m l with
    | none => none
    | some m => manifestLines m ls

def manifestParse (buf : Bytes) : Option Manifest :=
  match manifestLines .empty (bufLines [] buf) with
  | none => none
  | some m =>
    if m.id = [] ∨ m.name = [] ∨ m.version = [] then none
    else if m.isSystem = false ∧ m.exec = [] then none
    else some m

end Lorica.Impl.Herald

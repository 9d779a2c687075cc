import Lorica.Framework.Decimal

/-!
# libauth: `auth.c`

The readers of `/etc/passwd` and `/etc/shadow`. A file is its bytes, and `none` if it is not
there. `strncpy` into a buffer of `n` bytes keeps `n - 1` of them.
-/

namespace Lorica.Impl.Accounts

/-- The byte `:`. -/
def colon : UInt8 := 58

/-- `strchr`: what stands before a byte, and what after it. -/
def strchr (c : UInt8) (s : Bytes) : Option (Bytes × Bytes) :=
  if c ∈ s then some (s.takeWhile (· ≠ c), (s.dropWhile (· ≠ c)).drop 1) else none

/-- The loop that ends `n` fields at most at their colons: the fields, and what follows. -/
def splitFields : Nat → Bytes → List Bytes × Bytes
  | 0, p => ([], p)
  | n + 1, p =>
    match strchr colon p with
    | none => ([], p)
    | some (field, rest) => (field :: (splitFields n rest).1, (splitFields n rest).2)

/-- The seven fields of a line, if it has them. -/
def passwdFields (line : Bytes) : Option (List Bytes) :=
  let (fields, p) := splitFields 7 (cstr line)
  let fields := if fields.length = 6 then fields ++ [p.takeWhile (· ≠ newline)] else fields
  if fields.length < 7 then none else some fields

/-- What `auth_lookup_passwd` fills in. -/
structure Entry where
  uid : Int
  gid : Int
  home : Bytes
  shell : Bytes
deriving DecidableEq

/-- One round of the loop of `auth_lookup_passwd`. -/
def passwdEntry (username : Bytes) (homelen shelllen : Nat) (line : Bytes) : Option Entry := do
  let fields ← passwdFields line
  if fields.getD 0 [] ≠ username then none else
  some
    { uid := atoi (fields.getD 2 [])
      gid := atoi (fields.getD 3 [])
      home := (fields.getD 5 []).take (homelen - 1)
      shell := (fields.getD 6 []).take (shelllen - 1) }

/-- `auth_lookup_passwd`. -/
def authLookupPasswd (passwd : Option Bytes) (username : Bytes) (homelen shelllen : Nat) : Option Entry := do
  let file ← passwd
  (fgetsLines 256 [] file).findSome? (passwdEntry username homelen shelllen)

/-- One round of the loop of `auth_lookup_shadow`. -/
def shadowHash (username : Bytes) (hashlen : Nat) (line : Bytes) : Option Bytes := do
  let line := (cstr line).takeWhile (· ≠ newline)
  let (name, h) ← strchr colon line
  if name ≠ username then none
  else some ((h.takeWhile (· ≠ colon)).take (hashlen - 1))

/-- `auth_lookup_shadow`. -/
def authLookupShadow (shadow : Option Bytes) (username : Bytes) (hashlen : Nat) : Option Bytes := do
  let file ← shadow
  (fgetsLines 1024 [] file).findSome? (shadowHash username hashlen)

end Lorica.Impl.Accounts

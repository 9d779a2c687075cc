import Lorica.Framework.CString
import Lorica.Framework.Fallible
import Lorica.Framework.Posix

/-!
# herald: `tar.c`

The archive is a buffer in memory; every read of it is checked against its length, and one
outside ends the program in `Stop.bounds`. Sizes are of 64 bits and are reduced where they are
computed. The loops have a number of rounds, and one that needs more ends in `Stop.rounds`.

The mode of a new file is left out, as the file system has none.
-/

namespace Lorica.Impl.Herald.Tar

/-! ## Errors -/

inductive TarError
  | badMagic
  | badSize
  | badMode
  | truncated
  | entryTooLong
  | unsafePath
  | outside
  | targetTooLong
  | mkdirFailed
  | mkdirParentFailed
  | openFailed
  | writeFailed
  | shortWrite
  | closeFailed
  | ownerFailed
deriving DecidableEq

/-- How the program can stop before its end. -/
inductive Stop
  | err (e : TarError)
  /-- a read outside the buffer -/
  | bounds
  /-- a loop that goes on -/
  | rounds
deriving DecidableEq

/-! ## Headers -/

def tarBlock : Nat := 512

def tarName : Nat := 100

def tarPrefix : Nat := 155

def tarPathmax : Nat := tarPrefix + 1 + tarName + 1

/-- Sizes are of 64 bits. -/
def wrap (n : Nat) : Nat := n % 2 ^ 64

/-- `n` bytes at `i`. -/
def fetch (bs : Bytes) (i n : Nat) : Except Stop Bytes :=
  if i + n ≤ bs.length then .ok ((bs.drop i).take n) else .error .bounds

/-- The digits of `oct_parse`. -/
def octDigits : Nat → Bytes → Option Nat
  | v, [] => some v
  | v, c :: cs =>
    if c = space ∨ c = 0 then some v
    else if c < 48 ∨ 55 < c then none
    else octDigits (wrap (v * 8 + (c.toNat - 48))) cs

/-- `oct_parse`. -/
def octParse (field : Bytes) : Option Nat := octDigits 0 (field.dropWhile (· = space))

/-- An octal field of a header. -/
def octField (hdr : Bytes) (i n : Nat) (e : TarError) : Except Stop Nat := do
  let field ← fetch hdr i n
  match octParse field with
  | none => .error (.err e)
  | some v => .ok v

/-- `strip_dot_slash`. -/
def stripDotSlash (p : Bytes) : Bytes := if (ascii "./").isPrefixOf p then p.drop 2 else p

/-- `..` as a component at the start of what is left of a path. -/
def dotdotAt (p : Bytes) : Bool := dotdot.isPrefixOf p && (p.length == 2 || p.getD 2 0 == slash)

/-- The loop of `path_is_safe`; as many rounds as there are characters are enough. -/
def scanComponents : Nat → Bytes → Bool
  | 0, _ => true
  | n + 1, p =>
    if p = [] then true
    else if dotdotAt p = true then false
    else scanComponents n ((p.dropWhile (· ≠ slash)).dropWhile (· = slash))

/-- `path_is_safe`. -/
def pathIsSafe (p : Bytes) : Bool := p ≠ [] && p.head? ≠ some slash && scanComponents p.length p

/-- `build_path`. -/
def buildPath (hdr : Bytes) : Except Stop Bytes := do
  let name := cstr (← fetch hdr 0 tarName)
  let pre := cstr (← fetch hdr 345 tarPrefix)
  if 0 < pre.length then
    if tarPathmax < pre.length + 1 + name.length + 1 then .error (.err .entryTooLong)
    else .ok (pre ++ slash :: name)
  else if tarPathmax < name.length + 1 then .error (.err .entryTooLong)
  else .ok name

/-- The data of an entry with its padding. -/
def paddedSize (size : Nat) : Nat := wrap (wrap (size + (tarBlock - 1)) / tarBlock * tarBlock)

/-- What the loop of `tar_walk` reads of an entry. -/
structure Header where
  typeflag : UInt8
  path : Bytes
  size : Nat
  dataOff : Nat
  padded : Nat

def readHeader (len off : Nat) (hdr : Bytes) : Except Stop Header := do
  let magic ← fetch hdr 257 5
  if magic ≠ ascii "ustar" then .error (.err .badMagic)
  else
    let size ← octField hdr 124 12 .badSize
    let _ ← octField hdr 100 8 .badMode
    let typeflag ← fetch hdr 156 1
    let dataOff := wrap (off + tarBlock)
    let padded := paddedSize size
    if len < dataOff ∨ len - dataOff < padded then .error (.err .truncated)
    else
      let rawpath ← buildPath hdr
      .ok ⟨typeflag.headD 0, stripDotSlash rawpath, size, dataOff, padded⟩

/-! ## Entries -/

/-- Programs that work on files and can stop. -/
abbrev Act := Try Posix.machine Stop

/-- A step that does no work on files. -/
def checked {α : Type} (e : Except Stop α) : Act α := ExceptT.mk (pure e)

/-- `mkdir`, where the directory may be there. -/
def mkdirOrExists (path : Bytes) (e : TarError) : Act Unit := do
  match ← Try.lift (Sys.mkdir path) with
  | .ok () => pure ()
  | .error c => if c = .EEXIST then pure () else throw (.err e)

/-- The loop of `mkdir_parents`, `done` being behind it. -/
def mkdirParentsFrom (e : TarError) : Bytes → Bytes → Act Unit
  | _, [] => pure ()
  | done, b :: rest =>
    if b = slash then do
      mkdirOrExists done e
      mkdirParentsFrom e (done ++ [b]) rest
    else mkdirParentsFrom e (done ++ [b]) rest

/-- `mkdir_parents`: the first character is passed over. -/
def mkdirParents (e : TarError) (path : Bytes) : Act Unit := mkdirParentsFrom e (path.take 1) (path.drop 1)

/-- `mkdir_p`. -/
def mkdirP (path : Bytes) : Act Unit := do
  mkdirParents .mkdirFailed path
  mkdirOrExists path .mkdirFailed

/-- The loop that writes the data of a file. -/
def writeData (buf full : Bytes) (dataOff size : Nat) : Nat → Nat → Act Unit
  | 0, written => if size ≤ written then pure () else throw .rounds
  | n + 1, written =>
    if size ≤ written then pure ()
    else do
      let chunk ← checked (fetch buf (dataOff + written) (size - written))
      match ← Try.lift (Sys.write full chunk) with
      | .error _ => do
        let _ ← Try.lift (Sys.close full)
        throw (.err .writeFailed)
      | .ok w =>
        if w = 0 then do
          let _ ← Try.lift (Sys.close full)
          throw (.err .shortWrite)
        else writeData buf full dataOff size n (written + w)

/-- `str_starts_with`. -/
def strStartsWith (s pre : Bytes) : Bool := pre.isPrefixOf s

/-- `strip_trailing_slash`. -/
def stripTrailingSlash (p : Bytes) : Bytes := if p.getLast? = some slash then p.dropLast else p

def manifestName : Bytes := ascii "manifest"

/-- What an archive may write, if prefixes are given. -/
def allowed (prefixes : List Bytes) (path : Bytes) : Bool :=
  path == manifestName || prefixes.any fun q =>
    strStartsWith path q || (path.getLast? == some slash && strStartsWith q path)

/-- Where an entry is written; the manifest is not. -/
def target (root : Bytes) (prefixes : Option (List Bytes)) (path : Bytes) : Except Stop (Option Bytes) :=
  if prefixes.all (allowed · path) = false then .error (.err .outside)
  else if path = manifestName then .ok none
  else if tarPathmax + 256 < root.length + 1 + path.length + 1 then .error (.err .targetTooLong)
  else .ok (some (stripTrailingSlash (root ++ slash :: path)))

/-- The line of a file in the list of what the package owns. -/
def writeOwner (owner path : Bytes) : Act Unit := do
  match ← Try.lift (Sys.write owner path) with
  | .error _ => throw (.err .ownerFailed)
  | .ok w =>
    if w ≠ path.length then throw (.err .ownerFailed)
    else
      match ← Try.lift (Sys.write owner [newline]) with
      | .error _ => throw (.err .ownerFailed)
      | .ok w => if w ≠ 1 then throw (.err .ownerFailed) else pure ()

/-- A regular file. -/
def extractFile (buf full : Bytes) (h : Header) (owner : Option Bytes) : Act Unit := do
  mkdirParents .mkdirParentFailed full
  match ← Try.lift (Sys.openTrunc full) with
  | .error _ => throw (.err .openFailed)
  | .ok () =>
    writeData buf full h.dataOff h.size h.size 0
    if ← Try.lift (Sys.close full) then
      match owner with
      | none => pure ()
      | some o => writeOwner o h.path
    else throw (.err .closeFailed)

/-- The type flags of directories and of regular files. -/
def isDirFlag (t : UInt8) : Bool := t = 53

def isFileFlag (t : UInt8) : Bool := t = 48 || t = 0

/-- An entry in the mode that extracts. -/
def extractEntry (buf root : Bytes) (prefixes : Option (List Bytes)) (owner : Option Bytes) (h : Header) :
    Act Unit := do
  match ← checked (target root prefixes h.path) with
  | none => pure ()
  | some full => if isDirFlag h.typeflag = true then mkdirP full else extractFile buf full h owner

/-! ## The walk -/

inductive Mode
  | extract (root : Bytes) (prefixes : Option (List Bytes)) (owner : Option Bytes)
  | find (name : Bytes)

/-- The place and the size of a file that was found. -/
abbrev Found := Option (Nat × Nat)

/-- What the block at an offset is for the loop of `tar_walk`. -/
inductive Block
  /-- the end of the archive -/
  | final
  | zero
  | entry (h : Header)

def readBlock (buf : Bytes) (off zeroRun : Nat) : Except Stop Block := do
  let hdr ← fetch buf off tarBlock
  if hdr.all (· = 0) = true then
    if 2 ≤ zeroRun + 1 then .ok .final else .ok .zero
  else
    let name ← fetch hdr 0 tarName
    if name.all (· = 0) = true then .ok .final
    else
      let h ← readHeader buf.length off hdr
      .ok (.entry h)

/-- The loop of `tar_walk`. -/
def walk (buf : Bytes) (m : Mode) : Nat → Nat → Nat → Act Found
  | 0, _, _ => throw .rounds
  | n + 1, off, zeroRun =>
    if buf.length < wrap (off + tarBlock) then pure none
    else do
      match ← checked (readBlock buf off zeroRun) with
      | .final => pure none
      | .zero => walk buf m n (wrap (off + tarBlock)) (zeroRun + 1)
      | .entry h =>
        if isFileFlag h.typeflag = true ∨ isDirFlag h.typeflag = true then
          if pathIsSafe h.path = false then throw (.err .unsafePath)
          else
            match m with
            | .find name =>
              if isDirFlag h.typeflag = false ∧ h.path = name then pure (some (h.dataOff, h.size))
              else walk buf m n (wrap (h.dataOff + h.padded)) 0
            | .extract root prefixes owner => do
              extractEntry buf root prefixes owner h
              walk buf m n (wrap (h.dataOff + h.padded)) 0
        else walk buf m n (wrap (h.dataOff + h.padded)) 0

/-- `tar_walk`; each round takes a block at least. -/
def tarWalk (buf : Bytes) (m : Mode) : Act Found := walk buf m (buf.length / tarBlock + 1) 0 0

end Lorica.Impl.Herald.Tar

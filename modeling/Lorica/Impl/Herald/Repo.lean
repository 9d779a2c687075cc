import Lorica.Impl.Herald.Db
import Lorica.Impl.Herald.Manifest

/-!
# herald: `repo.c`

The cached package lists. A list is used only after its signed `Release` has been
verified with the embedded key, and its own hash has been found in it; `repo_find`
looks for the newest candidate of a name in all the lists.

SHA-256 and the verification of signatures are parameters (`Crypto`).
-/

namespace Lorica.Impl.Herald

/-- The cryptography that herald uses: SHA-256, and ECDSA verification of a message
and a signature with the key that is compiled in. -/
structure Crypto where
  sha256 : Bytes → Bytes
  verify : Bytes → Bytes → Bool

def heraldArch : Bytes := ascii "x86_64"
def heraldSources : Bytes := ascii "/etc/herald/sources.list"
def heraldListsDir : Bytes := ascii "/var/lib/herald/lists"

def hexDigit (n : UInt8) : UInt8 := if n < 10 then 48 + n else 87 + n

/-- A digest of 32 bytes, in hexadecimal. -/
def hex32 (d : Bytes) : Bytes := (d.take 32).flatMap fun (b : UInt8) => [hexDigit (b >>> 4), hexDigit (b &&& 15)]

/-- `read_file`. -/
def readFile (path : Bytes) : Sys (Option Bytes) := do
  match ← Sys.openRead path with
  | .error _ => pure none
  | .ok .dir => pure none
  | .ok (.file bs) => pure (some bs)

/-- What `next_line` leaves of a line in a buffer of `size` bytes. -/
def lineBuf (size : Nat) (l : Bytes) : Bytes :=
  let l := l.take (size - 1)
  cstr (if l.getLast? = some cr then l.dropLast else l)

/-! ## Versions -/

def period : UInt8 := 46

def ullongMax : Nat := 2 ^ 64 - 1

/-- The number in one component, which does not overflow but stays at the largest;
other characters than digits are passed over. -/
def verNumber (v : Nat) : Bytes → Nat
  | [] => v
  | b :: bs =>
    if isDigit b then
      let d := b.toNat - 48
      verNumber (if (ullongMax - d) / 10 < v then ullongMax else v * 10 + d) bs
    else verNumber v bs

/-- `ver_component`: the number, and what follows the component. -/
def verComponent (s : Bytes) : Nat × Bytes :=
  (verNumber 0 (s.takeWhile (· ≠ period)), s.dropWhile (· ≠ period))

/-- The loop of `herald_version_gt`; each round takes a byte of one of them. -/
def versionGt : Nat → Bytes → Bytes → Bool
  | 0, _, _ => false
  | fuel + 1, a, b =>
    if a = [] ∧ b = [] then false
    else
      let na := (verComponent a).1
      let nb := (verComponent b).1
      if na ≠ nb then decide (nb < na)
      else versionGt fuel ((verComponent a).2.drop 1) ((verComponent b).2.drop 1)

/-- `herald_version_gt`. -/
def heraldVersionGt (a b : Bytes) : Bool := versionGt (a.length + b.length) a b

/-! ## Sources -/

/-- `herald_source_t`. -/
structure Source where
  url : Bytes
  suite : Bytes
  component : Bytes
deriving DecidableEq

def isAlnum (b : UInt8) : Bool := (65 ≤ b && b ≤ 90) || (97 ≤ b && b ≤ 122) || isDigit b

def underscore : UInt8 := 95

/-- The name of a source's files in the cache. -/
def srckey (s : Source) : Bytes :=
  ((s.url ++ underscore :: (s.suite ++ underscore :: s.component)).take 399).map fun b =>
    if isAlnum b then b else underscore

/-- One line of the list of sources. -/
def sourceLine (line : Bytes) : Option Source :=
  let p := line.dropWhile isBlank
  if p = [] ∨ p.head? = some 35 then none
  else
    match scanWord 255 p with
    | none => none
    | some (url, p) =>
      match scanWord 63 p with
      | none => none
      | some (suite, p) =>
        match scanWord 63 p with
        | none => none
        | some (comp, _) => some ⟨(url.reverse.dropWhile (· = slash)).reverse, suite, comp⟩

/-- `sources_load`. -/
def sourcesLoad (max : Nat) : Sys (Option (List Source)) := do
  match ← readFile heraldSources with
  | none => pure none
  | some buf => pure (some (((bufLines [] buf).filterMap fun l => sourceLine (lineBuf 400 l)).take max))

/-! ## Release and Packages -/

/-- One line of the section `SHA256:`: a hash and the path it is for. -/
def releaseEntry (line : Bytes) : Option (Bytes × Bytes) :=
  match scanWord 79 (line.dropWhile (· = space)) with
  | none => none
  | some (hash, p) =>
    match scanLong p with
    | none => none
    | some p => (scanWord 255 p).map fun w => (hash.take 64, w.1)

/-- `release_find_hash`; `inSha` says whether the last line was in the section. -/
def releaseFindHash (wantpath : Bytes) (inSha : Bool) : List Bytes → Option Bytes
  | [] => none
  | l :: ls =>
    let line := lineBuf 400 l
    if (ascii "SHA256:").isPrefixOf line then releaseFindHash wantpath true ls
    else if inSha = true then
      if line.head? ≠ some space then releaseFindHash wantpath false ls
      else
        match releaseEntry line with
        | none => releaseFindHash wantpath true ls
        | some (hash, path) => if path = wantpath then some hash else releaseFindHash wantpath true ls
    else releaseFindHash wantpath false ls

/-- `herald_stanza_t`: one package in a list. -/
structure Stanza where
  name : Bytes
  version : Bytes
  arch : Bytes
  filename : Bytes
  sha256 : Bytes
  depends : Bytes
  displayName : Bytes
  exec : Bytes
  caps : Bytes
  baseUrl : Bytes
deriving DecidableEq

def Stanza.empty : Stanza := ⟨[], [], [], [], [], [], [], [], [], []⟩

def colon : UInt8 := 58

/-- One field of a stanza, cut to its size. -/
def stanzaField (s : Stanza) (key val : Bytes) : Stanza :=
  if key = ascii "Package" then { s with name := val.take 63 }
  else if key = ascii "Version" then { s with version := val.take 47 }
  else if key = ascii "Architecture" then { s with arch := val.take 15 }
  else if key = ascii "Filename" then { s with filename := val.take 191 }
  else if key = ascii "SHA256" then { s with sha256 := val.take 64 }
  else if key = ascii "Depends" then { s with depends := val.take 255 }
  else if key = ascii "Display-Name" then { s with displayName := val.take 63 }
  else if key = ascii "Exec" then { s with exec := val.take 63 }
  else if key = ascii "Caps" then { s with caps := val.take 255 }
  else s

def stanzaLine (s : Stanza) (line : Bytes) : Stanza :=
  if colon ∉ line then s
  else stanzaField s (line.takeWhile (· ≠ colon))
    (((line.dropWhile (· ≠ colon)).drop 1).dropWhile (· = space))

/-- `parse_stanza`: the next stanza, if there is one with a name, and the lines after
it. `got` says whether a line of it has been read. -/
def parseStanza (s : Stanza) (got : Bool) : List Bytes → Option Stanza × List Bytes
  | [] => (if got = true ∧ s.name ≠ [] then some s else none, [])
  | l :: ls =>
    let line := lineBuf 400 l
    if line = [] then
      if got = true then (if s.name ≠ [] then some s else none, ls) else parseStanza s false ls
    else parseStanza (stanzaLine s line) true ls

/-- The stanzas that repeated calls of `parse_stanza` give. -/
def stanzas : Nat → List Bytes → List Stanza
  | 0, _ => []
  | fuel + 1, ls =>
    match parseStanza .empty false ls with
    | (none, _) => []
    | (some s, ls) => s :: stanzas fuel ls

/-- The stanzas of a list of packages. -/
def packages (buf : Bytes) : List Stanza := stanzas (bufLines [] buf).length (bufLines [] buf)

/-! ## Verified lists -/

def releasePath (key : Bytes) : Bytes := heraldListsDir ++ slash :: (key ++ ascii ".Release")
def packagesPath (key : Bytes) : Bytes := heraldListsDir ++ slash :: (key ++ ascii ".Packages")

/-- The path of a source's list, as its `Release` gives it. -/
def wantPath (s : Source) : Bytes := s.component ++ ascii "/binary-" ++ heraldArch ++ ascii "/Packages"

/-- `lists_load_verified`. -/
def listsLoadVerified (C : Crypto) (s : Source) (key : Bytes) : Sys (Option Bytes) := do
  match ← readFile (releasePath key) with
  | none => pure none
  | some rbuf =>
    match ← readFile (releasePath key ++ ascii ".sig") with
    | none => pure none
    | some sbuf =>
      if C.verify rbuf sbuf = false then pure none
      else
        match releaseFindHash (wantPath s) false (bufLines [] rbuf) with
        | none => pure none
        | some wanthash =>
          match ← readFile (packagesPath key) with
          | none => pure none
          | some pbuf => pure (if hex32 (C.sha256 pbuf) = wanthash then some pbuf else none)

/-- The better of the candidate so far and a stanza of the source at `url`. -/
def candidate (name url : Bytes) (out : Option Stanza) (st : Stanza) : Option Stanza :=
  if st.name ≠ name then out
  else if st.arch ≠ [] ∧ st.arch ≠ heraldArch then out
  else
    match out with
    | none => some { st with baseUrl := url.take 255 }
    | some best =>
      if heraldVersionGt st.version best.version = true then some { st with baseUrl := url.take 255 }
      else some best

/-- The loop of `repo_find` over the sources; a list that does not verify is passed
over. -/
def repoFindIn (C : Crypto) (name : Bytes) (out : Option Stanza) : List Source → Sys (Option Stanza)
  | [] => pure out
  | s :: ss => do
    match ← listsLoadVerified C s (srckey s) with
    | none => repoFindIn C name out ss
    | some pbuf => repoFindIn C name ((packages pbuf).foldl (candidate name s.url) out) ss

/-- `repo_find`. -/
def repoFind (C : Crypto) (name : Bytes) : Sys (Found Stanza) := do
  match ← sourcesLoad 16 with
  | none => pure .error
  | some srcs =>
    match ← repoFindIn C name none srcs with
    | none => pure .absent
    | some st => pure (.found st)

end Lorica.Impl.Herald

import Lorica.Impl.Stsh.Arith

/-!
# The expansion of words in stsh: `run.c`

A word is expanded into fields by a field builder (`struct fb`), which fills an arena and a
vector of arguments. What the shell does not compute itself is in `World`: its process number,
the paths that match a pattern, and what a command prints. A program that is run for its output
runs in a child, so it changes nothing here.

An argument is the text it points to, or `none` if it points behind the arena.
-/

namespace Lorica.Impl.Stsh

def lineSize : Nat := 4096

def maxArgv : Nat := 64

def lbrace : UInt8 := 123

def rbrace : UInt8 := 125

/-- The globals that an expansion reads, and the variables, which it can set. -/
structure Sh where
  env : Env
  params : List Bytes
  arg0 : Bytes
  lastExit : Int
deriving DecidableEq

structure World where
  pid : Int
  /-- The paths that match a pattern; none if `glob` fails. -/
  glob : Bytes → List Bytes
  /-- What a child that runs a program prints; nothing if there is no pipe or no child. -/
  output : Sh → Bytes → Bytes

/-- `sh_capture` into a buffer of the given size, as the C string it leaves there. -/
def shCapture (w : World) (cap : Nat) (cmd : Bytes) (sh : Sh) : Bytes :=
  cstr (((w.output sh (cmd.take (lineSize - 1))).take (cap - 1)).reverse.dropWhile (· = newline)).reverse

/-- The text up to the parenthesis that closes, and the rest, which begins with that parenthesis. -/
def closing : Nat → Bytes → Bytes × Bytes
  | _, [] => ([], [])
  | depth, c :: p =>
    if c = rparen ∧ depth = 0 then ([], c :: p)
    else
      let r := closing (if c = lparen then depth + 1 else if c = rparen then depth - 1 else depth) p
      (c :: r.1, r.2)

def skip (c : UInt8) (p : Bytes) : Bytes := if p.head? = some c then p.drop 1 else p

/-- What `read_dollar` leaves: the value, the rest of the word, and the shell. -/
structure Dollar where
  val : Bytes
  rest : Bytes
  sh : Sh
deriving DecidableEq

/-- `env_or_param`. -/
def envOrParam (nm : Bytes) (sh : Sh) : Bytes := (sh.env.get nm).getD []

/-- The parameter `$0` to `$9`. -/
def param (i : Nat) (sh : Sh) : Bytes := if i = 0 then sh.arg0 else sh.params.getD (i - 1) []

/-- `read_dollar`, before its value is cut to the buffer. -/
def dollarValue (w : World) (one : Bytes → Sh → Bytes × Sh) (p : Bytes) (sh : Sh) : Dollar :=
  match p with
  | [] => ⟨[dollar], [], sh⟩
  | c :: t =>
    if c = byte '?' then ⟨decimalInt sh.lastExit, t, sh⟩
    else if c = dollar then ⟨decimalInt w.pid, t, sh⟩
    else if c = byte '#' then ⟨decimal sh.params.length, t, sh⟩
    else if c = byte '@' ∨ c = byte '*' then ⟨[space].intercalate sh.params, t, sh⟩
    else if isDigit c then ⟨param (c.toNat - 48) sh, t, sh⟩
    else if c = lparen ∧ t.head? = some lparen then
      -- the expression is itself expanded, then evaluated
      let r := closing 0 (t.drop 1)
      let ex := one (r.1.take (lineSize - 1)) sh
      let v := arithEval ex.1 ex.2.env
      ⟨decimalInt v.1, skip rparen (skip rparen r.2), { ex.2 with env := v.2 }⟩
    else if c = lparen then
      let r := closing 0 t
      ⟨shCapture w lineSize (r.1.take (lineSize - 1)) sh, skip rparen r.2, sh⟩
    else if c = lbrace then
      let nm := (t.takeWhile (· ≠ rbrace)).take 127
      ⟨envOrParam nm sh, skip rbrace (t.drop nm.length), sh⟩
    else if beginsName c then
      let nm := (p.takeWhile isNameChar).take 127
      ⟨envOrParam nm sh, p.drop nm.length, sh⟩
    else ⟨[dollar], p, sh⟩

/-- `read_dollar` into a line. -/
def readDollar (w : World) (one : Bytes → Sh → Bytes × Sh) (p : Bytes) (sh : Sh) : Dollar :=
  let r := dollarValue w one p sh
  { r with val := r.val.take (lineSize - 1) }

/-- A command in backquotes: what it prints, and the rest. -/
def readBackquote (w : World) (p : Bytes) (sh : Sh) : Dollar :=
  let cmd := p.takeWhile (· ≠ backquote)
  ⟨shCapture w lineSize (cmd.take (lineSize - 1)) sh, skip backquote (p.drop cmd.length), sh⟩

/-- `struct fb`: the arena is what is used of it, and the field is what it holds from `fstart` on, so that `fhas` is
whether there is any. -/
structure Fb where
  maxargc : Nat
  arenacap : Nat
  noglob : Bool
  argv : List (Option Bytes)
  used : Nat
  field : Bytes
  fquoted : Bool
deriving DecidableEq

/-- `fb_putc`. -/
def fbPutc (b : Fb) (c : UInt8) : Fb :=
  if b.used < b.arenacap - 1 then { b with used := b.used + 1, field := b.field ++ [c] } else b

/-- A pointer is appended as long as there is room for it. -/
def fbArg (b : Fb) (arg : Option Bytes) : Fb :=
  if b.argv.length < b.maxargc then { b with argv := b.argv ++ [arg] } else b

/-- A path that matched is copied behind the field, as far as it fits. -/
def fbMatch (b : Fb) (path : Bytes) : Fb :=
  if b.argv.length < b.maxargc then
    let copied := path.take (b.arenacap - 1 - b.used)
    if b.used + copied.length < b.arenacap then
      { b with used := b.used + copied.length + 1, argv := b.argv ++ [some copied] }
    else { b with argv := b.argv ++ [none] }
  else b

def hasPattern (field : Bytes) : Bool := field.any fun c => (ascii "*?[").contains c

/-- `fb_finish`. -/
def fbFinish (w : World) (b : Fb) : Fb :=
  if b.field = [] then b
  else
    let closed := if b.used < b.arenacap then { b with used := b.used + 1 } else b
    let paths := if !b.fquoted && !b.noglob && hasPattern b.field then w.glob b.field else []
    let done := if paths = [] then fbArg closed (some b.field) else paths.foldl fbMatch closed
    { done with field := [], fquoted := false }

/-- The characters of a quoted value. -/
def fbPuts (b : Fb) (val : Bytes) : Fb := val.foldl fbPutc b

/-- The characters of an unquoted value, with a field finished at each run of blanks; `within` says that such a run is
being skipped. -/
def fbSplit (w : World) (within : Bool) : Bytes → Fb → Fb
  | [], b => b
  | c :: v, b =>
    if isBlank c then fbSplit w true v (if within then b else fbFinish w b) else fbSplit w false v (fbPutc b c)

/-- `fb_emit_value`. -/
def fbEmitValue (w : World) (b : Fb) (val : Bytes) (unquoted : Bool) : Fb :=
  if unquoted then fbSplit w false val b else fbPuts b val

/-- Where the inside of double quotes ends: behind the closing quote, with the builder and the shell. -/
structure Quoted where
  rest : Bytes
  b : Fb
  sh : Sh
deriving DecidableEq

/-- The characters that a backslash protects within double quotes. -/
def isSpecial (c : UInt8) : Bool := c = dquote || c = backslash || c = dollar || c = backquote

/-- The loop of `expand_word` over the inside of double quotes. -/
def expandDouble (w : World) (one : Bytes → Sh → Bytes × Sh) : Nat → Bytes → Fb → Sh → Quoted
  | 0, p, b, sh => ⟨p, b, sh⟩
  | _ + 1, [], b, sh => ⟨[], b, sh⟩
  | n + 1, c :: p, b, sh =>
    if c = dquote then ⟨p, b, sh⟩
    else if c = dollar then
      let r := readDollar w one p sh
      expandDouble w one n r.rest (fbEmitValue w b r.val false) r.sh
    else if c = backquote then
      let r := readBackquote w p sh
      expandDouble w one n r.rest (fbEmitValue w b r.val false) r.sh
    else if c = backslash ∧ p.head?.any isSpecial then
      expandDouble w one n (p.drop 1) (fbPuts b (p.take 1)) sh
    else expandDouble w one n p (fbPutc b c) sh

/-- The builder of `expand_one`. -/
def oneFb : Fb := ⟨16, lineSize, true, [], 0, [], false⟩

/-- The fields of `expand_one`, joined in a buffer of a line. -/
def joinFields (b : Fb) : Bytes := ([space].intercalate (b.argv.map (·.getD []))).take (lineSize - 1)

/-- The loop of `expand_word`, for at most as many rounds. -/
def expandFrom (w : World) : Nat → Bytes → Fb → Sh → Fb × Sh
  | 0, _, b, sh => (fbFinish w b, sh)
  | _ + 1, [], b, sh => (fbFinish w b, sh)
  | n + 1, c :: p, b, sh =>
    -- an expression in parentheses is shorter than the word, so the rounds that are left are enough for it
    let one := fun raw sh => ((joinFields (expandFrom w n raw oneFb sh).1), (expandFrom w n raw oneFb sh).2)
    if c = squote then
      let quoted := p.takeWhile (· ≠ squote)
      expandFrom w n (skip squote (p.drop quoted.length)) (fbPuts { b with fquoted := true } quoted) sh
    else if c = dquote then
      let r := expandDouble w one n p { b with fquoted := true } sh
      expandFrom w n r.rest r.b r.sh
    else if c = backslash then
      expandFrom w n (p.drop 1) (fbPuts { b with fquoted := true } (p.take 1)) sh
    else if c = dollar then
      let r := readDollar w one p sh
      expandFrom w n r.rest (fbEmitValue w b r.val true) r.sh
    else if c = backquote then
      let r := readBackquote w p sh
      expandFrom w n r.rest (fbEmitValue w b r.val true) r.sh
    else expandFrom w n p (fbPutc b c) sh

/-- `expand_word`. -/
def expandWord (w : World) (raw : Bytes) (b : Fb) (sh : Sh) : Fb × Sh := expandFrom w (raw.length + 1) raw b sh

/-- `expand_one`, into a line. -/
def expandOne (w : World) (raw : Bytes) (sh : Sh) : Bytes × Sh :=
  let r := expandWord w raw oneFb sh
  (joinFields r.1, r.2)

def isAssignment (word : Bytes) : Bool :=
  word.head?.any beginsName && (word.dropWhile isNameChar).head? = some equals

/-- An assignment of `run_simple`: the text behind the first equals sign is expanded. -/
def assign (w : World) (word : Bytes) (sh : Sh) : Sh :=
  let key := word.takeWhile (· ≠ equals)
  let r := expandOne w (word.drop (key.length + 1)) sh
  { r.2 with env := r.2.env.set key r.1 }

/-- The loop of `run_simple` over the assignments at the front of a command, and the words that are left. -/
def assignments (w : World) : List Bytes → Sh → List Bytes × Sh
  | [], sh => ([], sh)
  | word :: words, sh => if isAssignment word then assignments w words (assign w word sh) else (word :: words, sh)

/-- The builder of `run_simple`. -/
def argvFb : Fb := ⟨maxArgv, lineSize * 2, false, [], 0, [], false⟩

end Lorica.Impl.Stsh

import Lorica.Framework.CString

/-!
# The lexer of stsh: `lexer.c`

`tokenize` fills an array of tokens and an arena with the texts of words and here-documents. Both
are what has been written of them, so their lengths are `nt` and `*used`, and what is written
lies within the caller's arrays just if they are no longer than those. The text of a token is
where it begins in the arena. A failure leaves what was written before it.
-/

namespace Lorica.Impl.Stsh

def byte (c : Char) : UInt8 := c.toUInt8

def squote : UInt8 := 39

def dquote : UInt8 := 34

def backquote : UInt8 := 96

def backslash : UInt8 := 92

def dollar : UInt8 := 36

def lparen : UInt8 := 40

def rparen : UInt8 := 41

/-- Blank, tab and newline, which separate words and fields. -/
def isBlank (c : UInt8) : Bool := c = space || c = tab || c = newline

/-- The characters before which an unquoted word ends. -/
def endsWord (c : UInt8) : Bool := isBlank c || (ascii "|&;<>()").contains c

/-- `PUT`: a character that does not fit is dropped. -/
def put (cap : Nat) (arena : Bytes) (c : UInt8) : Bytes :=
  if arena.length < cap - 1 then arena ++ [c] else arena

/-- Where in its loops `lex_word` is: in the outer one, in the one of a kind of quotes, in the one of `$(`, or, in the
outer one or that of double quotes, behind a backslash. -/
inductive Loop
  | plain
  | single
  | double
  | back
  | paren (depth : Nat)
  | escaped (quoted : Bool)
deriving DecidableEq

/-- Where it is after a character with the given text behind it. -/
def Loop.next : Loop → UInt8 → Bytes → Loop
  | .plain, c, p =>
    if c = squote then .single
    else if c = dquote then .double
    else if c = backquote then .back
    else if c = dollar ∧ p.head? = some lparen then .paren 0
    else if c = backslash then .escaped false
    else .plain
  | .single, c, _ => if c = squote then .plain else .single
  | .double, c, _ =>
    -- the backslash takes the next character along, even a closing quote
    if c = dquote then .plain else if c = backslash then .escaped true else .double
  | .back, c, _ => if c = backquote then .plain else .back
  | .paren depth, c, _ =>
    if c = lparen then .paren (depth + 1)
    else if c = rparen then if depth = 1 then .plain else .paren (depth - 1)
    else .paren depth
  | .escaped quoted, _, _ => if quoted then .double else .plain

/-- Copies a word from there on, up to where it ends: the rest of the text, and the arena. -/
def lexFrom (cap : Nat) : Loop → Bytes → Bytes → Bytes × Bytes
  | _, [], arena => ([], arena)
  | l, c :: p, arena =>
    if l = .plain ∧ endsWord c then (c :: p, arena) else lexFrom cap (l.next c p) p (put cap arena c)

/-- `lex_word`: the rest of the text, and the arena with the word and its NUL. -/
def lexWord (cap : Nat) (p arena : Bytes) : Bytes × Bytes :=
  let r := lexFrom cap .plain p arena
  (r.1, put cap r.2 0)

inductive TokType
  | word
  | pipe
  | and
  | or
  | semi
  | amp
  | lt
  | gt
  | gtgt
  | dgt
  | dgtamp
  | gtamp
  | dless
  | lparen
  | rparen
  | newline
  | eof
deriving DecidableEq

structure Tok where
  type : TokType
  text : Option Nat
deriving DecidableEq

/-- What `tokenize` has written. -/
structure Lex where
  toks : List Tok
  arena : Bytes
deriving DecidableEq

def Lex.push (s : Lex) (type : TokType) : Lex := { s with toks := s.toks ++ [⟨type, none⟩] }

/-- The operators, in the order in which they are tried. -/
def operators : List (Bytes × TokType) :=
  [([newline], .newline), (ascii "||", .or), (ascii "|", .pipe), (ascii "&&", .and),
    (ascii "&", .amp), (ascii ";", .semi),
    (ascii "(", .lparen), (ascii ")", .rparen), (ascii "<", .lt), (ascii ">>", .gtgt), (ascii ">&", .gtamp),
    (ascii ">", .gt), (ascii "2>&1", .dgtamp), (ascii "2>", .dgt)]

def operatorAt (p : Bytes) : Option (Bytes × TokType) := operators.find? fun o => o.1.isPrefixOf p

def skipBlanks (p : Bytes) : Bytes := p.dropWhile fun c => c = space || c = tab

/-- The delimiter of a here-document, of which at most as many characters are read, and the rest: it ends at the quote
with which it began, or else before a blank. -/
def heredocDelim (quote : Option UInt8) : Nat → Bytes → Bytes × Bytes
  | 0, p => ([], p)
  | _ + 1, [] => ([], [])
  | n + 1, c :: p =>
    if quote = some c then ([], p)
    else if quote = none ∧ isBlank c then ([], c :: p)
    else
      let r := heredocDelim quote n p
      (c :: r.1, r.2)

/-- What follows `<<`. -/
structure Opening where
  strip : Bool
  delim : Bytes
  rest : Bytes
deriving DecidableEq

def heredocOpening (p : Bytes) : Opening :=
  let strip : Bool := p.head? = some (byte '-')
  let p := skipBlanks (if strip then p.drop 1 else p)
  let quote := p.head?.filter fun c => c = squote || c = dquote
  let r := heredocDelim quote 63 (if quote.isSome then p.drop 1 else p)
  ⟨strip, r.1, r.2⟩

def nextLine (p : Bytes) : Bytes := (p.dropWhile (· ≠ newline)).drop 1

/-- A line without its leading tabs, where they are stripped. -/
def stripLine (strip : Bool) (line : Bytes) : Bytes := if strip then line.dropWhile (· = tab) else line

/-- Copies the lines of a here-document up to its delimiter, with the given start of a line read: the rest of the text,
and the arena. -/
def heredocBody (cap : Nat) (strip : Bool) (delim : Bytes) : Bytes → Bytes → Bytes → Bytes × Bytes
  | line, [], arena =>
    -- a last line without a newline gets one, unless it is the delimiter
    if line = [] ∨ stripLine strip line = delim then ([], arena)
    else ([], (stripLine strip line ++ [newline]).foldl (put cap) arena)
  | line, c :: p, arena =>
    if c = newline then
      if stripLine strip line = delim then (p, arena)
      else heredocBody cap strip delim [] p ((stripLine strip line ++ [newline]).foldl (put cap) arena)
    else heredocBody cap strip delim (line ++ [c]) p arena

/-- What a round of `tokenize` does: it goes on with the rest of the text, or it is done, or it fails. -/
inductive Round
  | next (p : Bytes) (s : Lex)
  | done (s : Lex)
  | fail (s : Lex)
deriving DecidableEq

/-- A here-document: a token for the operator, one for the body, and one for the end of the line. -/
def heredocRound (maxtoks arenalen : Nat) (p : Bytes) (s : Lex) : Round :=
  if maxtoks - 1 ≤ s.toks.length then .fail s
  else
    let s := s.push .dless
    let o := heredocOpening (p.drop 2)
    let r := heredocBody arenalen o.strip o.delim [] (nextLine o.rest) s.arena
    let arena := put arenalen r.2 0
    if maxtoks - 2 ≤ s.toks.length then .fail { s with arena }
    else .next r.1 (Lex.push ⟨s.toks ++ [⟨.word, some s.arena.length⟩], arena⟩ .newline)

def wordRound (maxtoks arenalen : Nat) (p : Bytes) (s : Lex) : Round :=
  if maxtoks - 1 ≤ s.toks.length then .fail s
  else
    let r := lexWord arenalen p s.arena
    let s' : Lex := ⟨s.toks ++ [⟨.word, some s.arena.length⟩], r.2⟩
    if arenalen - 1 ≤ s'.arena.length then .fail s' else .next r.1 s'

def lexRound (maxtoks arenalen : Nat) (text : Bytes) (s : Lex) : Round :=
  let p := skipBlanks text
  if p = [] then .done (s.push .eof)
  else if p.head? = some (byte '#') then .next (p.dropWhile (· ≠ newline)) s
  else if (ascii "<<").isPrefixOf p then heredocRound maxtoks arenalen p s
  else
    match operatorAt p with
    | some o => if maxtoks - 1 ≤ s.toks.length then .fail s else .next (p.drop o.1.length) (s.push o.2)
    | none => wordRound maxtoks arenalen p s

/-- The loop of `tokenize`, for at most as many rounds: whether it succeeds, and what it has written. -/
def tokenizeFrom (maxtoks arenalen : Nat) : Nat → Bytes → Lex → Bool × Lex
  | 0, _, s => (false, s)
  | n + 1, p, s =>
    match lexRound maxtoks arenalen p s with
    | .next p s => tokenizeFrom maxtoks arenalen n p s
    | .done s => (true, s)
    | .fail s => (false, s)

/-- `tokenize`; every round reads some of the text. -/
def tokenize (text : Bytes) (maxtoks arenalen : Nat) : Bool × Lex :=
  tokenizeFrom maxtoks arenalen (text.length + 1) text ⟨[], []⟩

end Lorica.Impl.Stsh

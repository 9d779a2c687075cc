import Lorica.Framework.Decimal
import Lorica.Impl.Stsh.Env
import Lorica.Impl.Stsh.Lexer

/-!
# The arithmetic of stsh: `run.c`

The evaluator behind `$(( ))` computes while it reads. A `long` is an integer that wraps at 64
bits. Six functions of the source are one loop each, over the operators of one level, and are
here `arChain` at those operators. The recursion is on a number of rounds, of which a text never
needs more than it has characters.
-/

namespace Lorica.Impl.Stsh

def wrap64 (i : Int) : Int := i.bmod (2 ^ 64)

def isAlpha (c : UInt8) : Bool := (byte 'a' ≤ c && c ≤ byte 'z') || (byte 'A' ≤ c && c ≤ byte 'Z')

/-- The characters that begin a name. -/
def beginsName (c : UInt8) : Bool := c = byte '_' || isAlpha c

/-- The characters that a name goes on with. -/
def isNameChar (c : UInt8) : Bool := beginsName c || isDigit c

/-- The digits of `strtol`, of every base. -/
def digitOf (c : UInt8) : Nat :=
  if isDigit c then c.toNat - 48
  else if byte 'a' ≤ c ∧ c ≤ byte 'z' then c.toNat - 87
  else if byte 'A' ≤ c ∧ c ≤ byte 'Z' then c.toNat - 55
  else 36

/-- The digits at the front, as a number that is held within a `long`, and the rest. -/
def strtolDigits (base : Nat) (negative : Bool) (p : Bytes) : Int × Bytes :=
  let ds := p.takeWhile fun c => digitOf c < base
  let n : Nat := ds.foldl (fun v c => base * v + digitOf c) 0
  (if negative then max (-2 ^ 63) (-(n : Int)) else min (2 ^ 63 - 1) n, p.drop ds.length)

/-- `strtol(p, &p, 0)`. -/
def strtol (p : Bytes) : Int × Bytes :=
  let q := p.dropWhile isSpace
  let negative : Bool := q.head? = some (byte '-')
  let q := if negative ∨ q.head? = some (byte '+') then q.drop 1 else q
  if (q.head?.any fun c => digitOf c < 10) = false then (0, p)
  else if q.head? ≠ some (byte '0') then strtolDigits 10 negative q
  else if (q[1]? = some (byte 'x') ∨ q[1]? = some (byte 'X')) ∧ (q[2]?.any fun c => digitOf c < 16) then
    strtolDigits 16 negative (q.drop 2)
  else strtolDigits 8 negative q

/-- `struct ap`, with the variables. -/
structure Ap where
  s : Bytes
  env : Env
deriving DecidableEq

/-- `ar_ws`. -/
def arWs (a : Ap) : Ap := { a with s := a.s.dropWhile fun c => c = space || c = tab }

/-- A variable as a number, zero if it is not set. -/
def arVar (nm : Bytes) (env : Env) : Int := ((env.get nm).map fun v => (strtol v).1).getD 0

/-- The name at the front of a text, as far as it fits into `nm`, and the rest. -/
def arName (s : Bytes) : Bytes × Bytes := ((s.takeWhile isNameChar).take 63, s.dropWhile isNameChar)

/-- `ar_prim`. -/
def arPrim (expr : Ap → Int × Ap) (a : Ap) : Int × Ap :=
  let a := arWs a
  match a.s with
  | [] => (0, a)
  | c :: s =>
    if c = lparen then
      let r := expr { a with s }
      let a := arWs r.2
      (r.1, if a.s.head? = some rparen then { a with s := a.s.drop 1 } else a)
    else if isDigit c then ((strtol a.s).1, { a with s := (strtol a.s).2 })
    else if beginsName c then (arVar (arName a.s).1 a.env, { a with s := (arName a.s).2 })
    else (0, a)

/-- `ar_un`. -/
def arUn (prim : Ap → Int × Ap) : Nat → Ap → Int × Ap
  | 0, a => prim (arWs a)
  | n + 1, a =>
    let a := arWs a
    match a.s with
    | [] => prim a
    | c :: s =>
      let r := arUn prim n { a with s }
      if c = byte '-' then (wrap64 (-r.1), r.2)
      else if c = byte '+' then r
      else if c = byte '!' then (if r.1 = 0 then 1 else 0, r.2)
      else if c = byte '~' then (-r.1 - 1, r.2)
      else prim a

/-- An operator at the front of a text, with what it computes, and the rest. -/
abbrev Operator := (Int → Int → Int) × Bytes

/-- The loop of a level: as long as one of its operators follows, an operand is read and the operator applied. -/
def arChain (op : Bytes → Option Operator) (operand : Ap → Int × Ap) : Nat → Int → Ap → Int × Ap
  | 0, v, a => (v, arWs a)
  | n + 1, v, a =>
    let a := arWs a
    match op a.s with
    | none => (v, a)
    | some (f, s) =>
      let r := operand { a with s }
      arChain op operand n (f v r.1) r.2

/-- A level: an operand, then the loop. -/
def arLevel (op : Bytes → Option Operator) (operand : Ap → Int × Ap) (a : Ap) : Int × Ap :=
  let r := operand a
  arChain op operand r.2.s.length r.1 r.2

def truth (b : Bool) : Int := if b then 1 else 0

/-- Division and remainder give zero where they are not defined. -/
def divide (v d : Int) : Int := if d = 0 then 0 else wrap64 (v.tdiv d)

def remainder (v d : Int) : Int := if d = 0 then 0 else v.tmod d

/-- The operator that a level finds, from a list of texts in the order in which they are tried. -/
def operator (table : List (Bytes × (Int → Int → Int))) (s : Bytes) : Option Operator :=
  (table.find? fun o => o.1.isPrefixOf s).map fun o => (o.2, s.drop o.1.length)

/-- `ar_mul`. -/
def arMul : (Ap → Int × Ap) → Ap → Int × Ap :=
  arLevel (operator [(ascii "*", fun v w => wrap64 (v * w)), (ascii "/", divide), (ascii "%", remainder)])

/-- `ar_add`. -/
def arAdd : (Ap → Int × Ap) → Ap → Int × Ap :=
  arLevel (operator [(ascii "+", fun v w => wrap64 (v + w)), (ascii "-", fun v w => wrap64 (v - w))])

/-- `ar_cmp`. -/
def arCmp : (Ap → Int × Ap) → Ap → Int × Ap :=
  arLevel (operator [(ascii "<=", fun v w => truth (v ≤ w)), (ascii ">=", fun v w => truth (v ≥ w)),
    (ascii "<", fun v w => truth (v < w)), (ascii ">", fun v w => truth (v > w))])

/-- `ar_eq`. -/
def arEq : (Ap → Int × Ap) → Ap → Int × Ap :=
  arLevel (operator [(ascii "==", fun v w => truth (v = w)), (ascii "!=", fun v w => truth (v ≠ w))])

/-- Both operands are evaluated, here and in `arOr`. -/
def arAnd : (Ap → Int × Ap) → Ap → Int × Ap :=
  arLevel (operator [(ascii "&&", fun v w => truth (v ≠ 0 && w ≠ 0))])

/-- `ar_or`. -/
def arOr : (Ap → Int × Ap) → Ap → Int × Ap :=
  arLevel (operator [(ascii "||", fun v w => truth (v ≠ 0 || w ≠ 0))])

/-- The operator of a compound assignment, and what it computes. -/
def compound (s : Bytes) : Option Operator :=
  operator [(ascii "+=", fun v w => wrap64 (v + w)), (ascii "-=", fun v w => wrap64 (v - w)),
    (ascii "*=", fun v w => wrap64 (v * w)), (ascii "/=", divide), (ascii "%=", remainder)] s

def setVar (nm : Bytes) (v : Int) (a : Ap) : Int × Ap := (v, { a with env := a.env.set nm (decimalInt v) })

/-- `ar_assign`, which is `ar_expr`. -/
def arAssign : Nat → Ap → Int × Ap
  | 0, a => (0, a)
  | n + 1, a =>
    let a := arWs a
    let nm := (arName a.s).1
    let r := (arName a.s).2.dropWhile fun c => c = space || c = tab
    let plain := fun a => arOr (arAnd (arEq (arCmp (arAdd (arMul (arUn (arPrim (arAssign n)) a.s.length)))))) a
    if a.s.head?.any beginsName then
      if r.head? = some equals ∧ r[1]? ≠ some equals then
        let w := arAssign n { a with s := r.drop 1 }
        setVar nm w.1 w.2
      else
        match compound r with
        | some (f, s) =>
          let w := arAssign n { a with s }
          setVar nm (f (arVar nm w.2.env) w.1) w.2
        | none => plain a
    else plain a

/-- `arith_eval`: the value, and the variables. -/
def arithEval (expr : Bytes) (env : Env) : Int × Env :=
  let r := arAssign (expr.length + 1) ⟨expr, env⟩
  (r.1, r.2.env)

end Lorica.Impl.Stsh

import Lorica.Proof.Stsh.Assign
import Lorica.Proof.Stsh.Notes

/-!
# Precedence in the arithmetic of stsh

An expression is printed with the parentheses that the precedence of C asks for (`Expr.tokens`), as
any text in which blanks part the tokens (`Printed`). What the evaluator does on its way through such
a text is `Expr.run`, by recursion on the expression.
-/

namespace Lorica.Proof.Stsh

open Lorica.Impl.Stsh List

/-! ## Expressions -/

inductive Base
  | decimal | octal | hexadecimal
deriving DecidableEq

def Base.value : Base → Nat
  | .decimal => 10
  | .octal => 8
  | .hexadecimal => 16

/-- An integer literal of C without a suffix: the digits behind what tells the base. -/
structure Literal where
  base : Base
  digits : Bytes
  digits_lt : ∀ c ∈ digits, digitOf c < base.value
  nonempty : base ≠ .octal → digits ≠ []
  leading : base = .decimal → digits.head? ≠ some (byte '0')
deriving DecidableEq

namespace Literal

def text (l : Literal) : Bytes :=
  match l.base with
  | .decimal => l.digits
  | .octal => byte '0' :: l.digits
  | .hexadecimal => byte '0' :: byte 'x' :: l.digits

def value (l : Literal) : Nat := l.digits.foldl (fun v c => l.base.value * v + digitOf c) 0

end Literal

/-- The name of a variable. -/
structure Name where
  text : Bytes
  isName : IsName text
deriving DecidableEq

inductive Unary
  | minus | plus | not | complement
deriving DecidableEq

instance : Fintype Unary := .ofList [.minus, .plus, .not, .complement] fun o => by cases o <;> decide

def Unary.char : Unary → UInt8
  | .minus => byte '-'
  | .plus => byte '+'
  | .not => byte '!'
  | .complement => byte '~'

inductive Binary
  | mul | div | rem | add | sub | le | ge | lt | gt | eq | ne | and | or
deriving DecidableEq

instance : Fintype Binary :=
  .ofList [.mul, .div, .rem, .add, .sub, .le, .ge, .lt, .gt, .eq, .ne, .and, .or] fun o => by cases o <;> decide

namespace Binary

def op : Binary → Op
  | mul => .quiet (ascii "*") fun v w => wrap64 (v * w)
  | div => .dividing (ascii "/") fun v d => wrap64 (v.tdiv d)
  | rem => .dividing (ascii "%") Int.tmod
  | add => .quiet (ascii "+") fun v w => wrap64 (v + w)
  | sub => .quiet (ascii "-") fun v w => wrap64 (v - w)
  | le => .quiet (ascii "<=") fun v w => truth (v ≤ w)
  | ge => .quiet (ascii ">=") fun v w => truth (v ≥ w)
  | lt => .quiet (ascii "<") fun v w => truth (v < w)
  | gt => .quiet (ascii ">") fun v w => truth (v > w)
  | eq => .quiet (ascii "==") fun v w => truth (v = w)
  | ne => .quiet (ascii "!=") fun v w => truth (v ≠ w)
  | and => .quiet (ascii "&&") fun v w => truth (v ≠ 0 && w ≠ 0)
  | or => .quiet (ascii "||") fun v w => truth (v ≠ 0 || w ≠ 0)

/-- The place of the operator in the precedence of C: the smaller, the more tightly it binds. -/
def rank : Binary → Nat
  | mul | div | rem => 0
  | add | sub => 1
  | le | ge | lt | gt => 2
  | eq | ne => 3
  | and => 4
  | or => 5

end Binary

inductive Compound
  | add | sub | mul | div | rem
deriving DecidableEq

instance : Fintype Compound := .ofList [.add, .sub, .mul, .div, .rem] fun o => by cases o <;> decide

def Compound.op : Compound → Op
  | add => .quiet (ascii "+=") fun v w => wrap64 (v + w)
  | sub => .quiet (ascii "-=") fun v w => wrap64 (v - w)
  | mul => .quiet (ascii "*=") fun v w => wrap64 (v * w)
  | div => .dividing (ascii "/=") fun v d => wrap64 (v.tdiv d)
  | rem => .dividing (ascii "%=") Int.tmod

inductive Expr
  | lit (l : Literal)
  | var (x : Name)
  | un (o : Unary) (e : Expr)
  | bin (o : Binary) (l r : Expr)
  | assign (x : Name) (e : Expr)
  | update (o : Compound) (x : Name) (e : Expr)
deriving DecidableEq

namespace Expr

/-- What parentheses are needed for: an operand of rank `k` stands without them where `k` is asked for, or more. -/
def rank : Expr → Nat
  | lit _ | var _ | un _ _ => 0
  | bin o _ _ => o.rank + 1
  | assign _ _ | update _ _ _ => 7

/-- A list of tokens, in parentheses if they are needed. -/
def wrap (needed : Bool) (ts : List Bytes) : List Bytes := if needed then [lparen] :: (ts ++ [[rparen]]) else ts

/-- The tokens, with the parentheses that precedence and associativity ask for. -/
def tokens : Expr → List Bytes
  | lit l => [l.text]
  | var x => [x.text]
  | un o e => [o.char] :: wrap (0 < e.rank) e.tokens
  | bin o l r => wrap (o.rank + 1 < l.rank) l.tokens ++ o.op.text :: wrap (o.rank < r.rank) r.tokens
  | assign x e => x.text :: [equals] :: e.tokens
  | update o x e => x.text :: o.op.text :: e.tokens

end Expr

/-- A blank between tokens. -/
def isGap (c : UInt8) : Bool := c = space || c = tab

/-- Here a token may end. -/
def Ends (s : Bytes) : Prop := ∀ c ∈ s.head?, isGap c = true

/-- A text that has the tokens, with blanks between them. -/
inductive Printed : List Bytes → Bytes → Prop
  | nil {s : Bytes} : (∀ c ∈ s, isGap c = true) → Printed [] s
  | cons {t w s : Bytes} {ts : List Bytes} : (∀ c ∈ w, isGap c = true) → Ends s → Printed ts s →
      Printed (t :: ts) (w ++ (t ++ s))

/-! ## What the evaluator computes -/

structure Outcome where
  value : Int
  env : Env
  notes : List Event
deriving DecidableEq

/-- The outcome of an assignment, after that of its right side. -/
def Outcome.assign (x : Name) (v : Int) (notes : List Event) (r : Outcome) : Outcome where
  value := v
  env := r.env.set (x.text.take 63) (decimalInt v)
  notes := r.notes ++ notes ++ [.assigned (x.text.take 63) v]

/-- Every operand is evaluated, those of `&&` and `||` too, and 63 characters of a name count. -/
def Expr.run : Expr → Env → Outcome
  | .lit l, env => ⟨min (2 ^ 63 - 1) l.value, env, []⟩
  | .var x, env => ⟨arVar (x.text.take 63) env, env, []⟩
  | .un o e, env => let r := e.run env; { r with value := unary o.char r.value }
  | .bin o l r, env =>
    let p := l.run env
    let q := r.run p.env
    ⟨o.op.apply p.value q.value, q.env, p.notes ++ q.notes ++ o.op.notes p.value q.value⟩
  | .assign x e, env => (e.run env).assign x (e.run env).value []
  | .update o x e, env =>
    let r := e.run env
    let v := arVar (x.text.take 63) r.env
    r.assign x (o.op.apply v r.value) (o.op.notes v r.value)

/-! ## Tokens -/

def IsToken (t : Bytes) : Prop := t ≠ [] ∧ ∀ c ∈ t, isGap c = false

instance (t : Bytes) : Decidable (IsToken t) := inferInstanceAs (Decidable (_ ∧ _))

variable {s t : Bytes} {ts : List Bytes} {table : List Op}

theorem not_isGap : ∀ c : UInt8, isNameChar c = true ∨ digitOf c < 36 → isGap c = false := by
  decide +kernel

theorem not_isGap_of_isNameChar {c : UInt8} (h : isNameChar c = true) : isGap c = false := not_isGap c (.inl h)

theorem not_isGap_of_digitOf {c : UInt8} (h : digitOf c < 36) : isGap c = false := not_isGap c (.inr h)

theorem isToken_name (x : Name) : IsToken x.text := by
  refine ⟨fun h => ?_, fun c hc => not_isGap_of_isNameChar (x.isName.2 c hc)⟩
  have hhead := x.isName.1
  rw [h] at hhead
  exact absurd hhead (by decide)

theorem isToken_literal (l : Literal) : IsToken l.text := by
  have hbase : l.base.value ≤ 36 := by cases l.base <;> decide
  have hdigits : ∀ c ∈ l.digits, isGap c = false := fun c hc =>
    not_isGap_of_digitOf (Nat.lt_of_lt_of_le (l.digits_lt c hc) hbase)
  have hnonempty := l.nonempty
  unfold Literal.text
  split <;> rename_i hb
  · exact ⟨hnonempty (by simp [hb]), hdigits⟩
  · exact ⟨cons_ne_nil _ _, forall_mem_cons.mpr ⟨by decide, hdigits⟩⟩
  · exact ⟨cons_ne_nil _ _, forall_mem_cons.mpr ⟨by decide, forall_mem_cons.mpr ⟨by decide, hdigits⟩⟩⟩

theorem isToken_punctuation : (IsToken [lparen] ∧ IsToken [rparen] ∧ IsToken [equals]) ∧
    (∀ o : Unary, IsToken [o.char]) ∧ (∀ o : Binary, IsToken o.op.text) ∧ ∀ o : Compound, IsToken o.op.text := by
  decide +kernel

theorem isToken_unary : ∀ o : Unary, IsToken [o.char] := isToken_punctuation.2.1

theorem isToken_lparen : IsToken [lparen] := isToken_punctuation.1.1

theorem isToken_rparen : IsToken [rparen] := isToken_punctuation.1.2.1

theorem isToken_equals : IsToken [equals] := isToken_punctuation.1.2.2

theorem isToken_binary : ∀ o : Binary, IsToken o.op.text := isToken_punctuation.2.2.1

theorem isToken_compound : ∀ o : Compound, IsToken o.op.text := isToken_punctuation.2.2.2

theorem isToken_wrap {needed : Bool} (h : ∀ t ∈ ts, IsToken t) : ∀ t ∈ Expr.wrap needed ts, IsToken t := by
  cases needed with
  | false => exact h
  | true =>
    intro t ht
    obtain rfl | ht := mem_cons.mp ht
    · exact isToken_lparen
    obtain ht | ht := mem_append.mp ht
    · exact h t ht
    · rw [mem_singleton.mp ht]
      exact isToken_rparen

theorem isToken_tokens (e : Expr) : ∀ t ∈ e.tokens, IsToken t := by
  induction e with
  | lit l => exact forall_mem_singleton.mpr (isToken_literal l)
  | var x => exact forall_mem_singleton.mpr (isToken_name x)
  | un o e ih => exact forall_mem_cons.mpr ⟨isToken_unary o, isToken_wrap ih⟩
  | bin o l r ihl ihr =>
    intro t ht
    obtain ht | ht := mem_append.mp ht
    · exact isToken_wrap ihl t ht
    obtain rfl | ht := mem_cons.mp ht
    · exact isToken_binary o
    · exact isToken_wrap ihr t ht
  | assign x e ih => exact forall_mem_cons.mpr ⟨isToken_name x, forall_mem_cons.mpr ⟨isToken_equals, ih⟩⟩
  | update o x e ih =>
    exact forall_mem_cons.mpr ⟨isToken_name x, forall_mem_cons.mpr ⟨isToken_compound o, ih⟩⟩

/-! ## Printed texts -/

theorem dropWhile_gap {w : Bytes} (hw : ∀ c ∈ w, isGap c = true) (ht : IsToken t) :
    (w ++ (t ++ s)).dropWhile isGap = t ++ s := by
  rw [dropWhile_append_of_pos hw]
  obtain ⟨hne, hgap⟩ := ht
  cases t with
  | nil => exact absurd rfl hne
  | cons c t => exact dropWhile_cons_of_neg (by simp [hgap c mem_cons_self])

/-- The first token of a text. -/
theorem Printed.head (h : Printed (t :: ts) s) (ht : IsToken t) :
    ∃ s', s.dropWhile isGap = t ++ s' ∧ Ends s' ∧ Printed ts s' ∧ t.length + s'.length ≤ s.length := by
  cases h with
  | cons hw hends hs =>
    refine ⟨_, dropWhile_gap hw ht, hends, hs, ?_⟩
    simp only [length_append]
    omega

theorem Printed.end (h : Printed [] s) : s.dropWhile isGap = [] := by
  cases h with
  | nil hs => exact dropWhile_eq_nil_iff.mpr hs

/-- The blanks in front do not matter. -/
theorem Printed.ws (h : Printed ts s) (ht : ∀ t ∈ ts.head?, IsToken t) : Printed ts (s.dropWhile isGap) := by
  cases h with
  | nil hs =>
    rw [dropWhile_eq_nil_iff.mpr hs]
    exact .nil fun c hc => absurd hc not_mem_nil
  | cons hw hends hs =>
    rw [dropWhile_gap hw (ht _ rfl)]
    exact .cons (w := []) (fun c hc => absurd hc not_mem_nil) hends hs

/-- A text without blanks is in front of a token and what follows just if it is in front of the token. -/
theorem isPrefixOf_boundary {p : Bytes} (hp : ∀ c ∈ p, isGap c = false) (hs : Ends s) :
    p.isPrefixOf (t ++ s) = p.isPrefixOf t := by
  induction t generalizing p with
  | nil =>
    cases p with
    | nil => rfl
    | cons c p =>
      cases s with
      | nil => rfl
      | cons d s =>
        have hne : (c == d) = false := by
          rw [beq_eq_false_iff_ne]
          rintro rfl
          have hc := hp c mem_cons_self
          rw [hs c rfl] at hc
          exact absurd hc (by decide)
        rw [nil_append, isPrefixOf_cons_cons, hne]
        rfl
  | cons d t ih =>
    cases p with
    | nil => rfl
    | cons c p =>
      rw [cons_append, isPrefixOf_cons_cons, isPrefixOf_cons_cons, ih fun c hc => hp c (mem_cons_of_mem _ hc)]

theorem findOp_boundary (htable : ∀ o ∈ table, ∀ c ∈ o.text, isGap c = false) (hs : Ends s) :
    findOp table (t ++ s) = (findOp table t).map fun r => (r.1, r.2 ++ s) := by
  have hfind : (table.find? fun o => o.text.isPrefixOf (t ++ s)) = table.find? fun o => o.text.isPrefixOf t := by
    induction table with
    | nil => rfl
    | cons o table ih =>
      rw [forall_mem_cons] at htable
      rw [find?_cons, find?_cons, isPrefixOf_boundary htable.1 hs, ih htable.2]
  rw [findOp, findOp, hfind]
  cases ho : table.find? fun o => o.text.isPrefixOf t with
  | none => rfl
  | some o =>
    have hprefix : o.text.isPrefixOf t = true := find?_some (p := fun o : Op => o.text.isPrefixOf t) ho
    have hlen := ( isPrefixOf_iff_prefix.mp hprefix).length_le
    simp [drop_append_of_le_length hlen]

theorem text_compounds : ∀ o ∈ compounds, ∀ c ∈ o.text, isGap c = false := by
  decide +kernel

end Lorica.Proof.Stsh

import Lorica.Impl.Stsh.Arith

/-!
# What the evaluator of stsh does on its way

`notedEval` is `arith_eval` once more, with a note of each division, each assignment and of a
recursion that is cut off where the source would go on. Without the notes it is the evaluator
(`notedEval_erase`).
-/

namespace Lorica.Proof.Stsh

open Lorica.Impl.Stsh

inductive Event
  /-- A division or a remainder. -/
  | divided (v d : Int)
  | assigned (nm : Bytes) (v : Int)
  /-- The recursion was cut off. -/
  | exhausted
deriving DecidableEq

/-- The state of the evaluator, with the notes so far. -/
structure Np where
  ap : Ap
  notes : List Event
deriving DecidableEq

namespace Np

def note (ns : List Event) (a : Np) : Np := { a with notes := a.notes ++ ns }

/-- The same state at another text. -/
def goto (s : Bytes) (a : Np) : Np := { a with ap := { a.ap with s } }

def ws (a : Np) : Np := { a with ap := arWs a.ap }

end Np

/-! ## The evaluator -/

def notedPrim (expr : Np → Int × Np) (a : Np) : Int × Np :=
  let a := a.ws
  match a.ap.s with
  | [] => (0, a)
  | c :: s =>
    if c = lparen then
      let r := expr (a.goto s)
      let a := r.2.ws
      (r.1, if a.ap.s.head? = some rparen then a.goto (a.ap.s.drop 1) else a)
    else if isDigit c then ((strtol a.ap.s).1, a.goto (strtol a.ap.s).2)
    else if beginsName c then (arVar (arName a.ap.s).1 a.ap.env, a.goto (arName a.ap.s).2)
    else (0, a)

def isUnary (c : UInt8) : Bool := c = byte '-' || c = byte '+' || c = byte '!' || c = byte '~'

/-- What a unary operator computes. -/
def unary (c : UInt8) (v : Int) : Int :=
  if c = byte '-' then wrap64 (-v) else if c = byte '+' then v
  else if c = byte '!' then if v = 0 then 1 else 0
  else -v - 1

def notedUn (prim : Np → Int × Np) : Nat → Np → Int × Np
  | 0, a =>
    let a := a.ws
    prim (if a.ap.s.head?.any isUnary then a.note [.exhausted] else a)
  | n + 1, a =>
    let a := a.ws
    match a.ap.s with
    | [] => prim a
    | c :: s =>
      if isUnary c then
        let r := notedUn prim n (a.goto s)
        (unary c r.1, r.2)
      else prim a

/-- An operator: its text, what it computes and what is noted. -/
structure Op where
  text : Bytes
  apply : Int → Int → Int
  notes : Int → Int → List Event

def Op.quiet (text : Bytes) (apply : Int → Int → Int) : Op := ⟨text, apply, fun _ _ => []⟩

/-- A division as the source makes it, with the note of it: `d ? f(v, d) : 0`. -/
def guarded (f : Int → Int → Int) (v d : Int) : Int × List Event :=
  if d = 0 then (0, []) else (f v d, [.divided v d])

def Op.dividing (text : Bytes) (f : Int → Int → Int) : Op :=
  ⟨text, fun v d => (guarded f v d).1, fun v d => (guarded f v d).2⟩

def findOp (table : List Op) (s : Bytes) : Option (Op × Bytes) :=
  (table.find? fun o => o.text.isPrefixOf s).map fun o => (o, s.drop o.text.length)

def notedChain (table : List Op) (operand : Np → Int × Np) : Nat → Int → Np → Int × Np
  | 0, v, a =>
    let a := a.ws
    (v, if (findOp table a.ap.s).isSome then a.note [.exhausted] else a)
  | n + 1, v, a =>
    let a := a.ws
    match findOp table a.ap.s with
    | none => (v, a)
    | some (o, s) =>
      let r := operand (a.goto s)
      notedChain table operand n (o.apply v r.1) (r.2.note (o.notes v r.1))

def notedLevel (table : List Op) (operand : Np → Int × Np) (a : Np) : Int × Np :=
  let r := operand a
  notedChain table operand r.2.ap.s.length r.1 r.2

def mulOps : List Op :=
  [.quiet (ascii "*") fun v w => wrap64 (v * w), .dividing (ascii "/") fun v d => wrap64 (v.tdiv d),
    .dividing (ascii "%") Int.tmod]

def addOps : List Op :=
  [.quiet (ascii "+") fun v w => wrap64 (v + w), .quiet (ascii "-") fun v w => wrap64 (v - w)]

def cmpOps : List Op :=
  [.quiet (ascii "<=") fun v w => truth (v ≤ w), .quiet (ascii ">=") fun v w => truth (v ≥ w),
    .quiet (ascii "<") fun v w => truth (v < w), .quiet (ascii ">") fun v w => truth (v > w)]

def eqOps : List Op := [.quiet (ascii "==") fun v w => truth (v = w), .quiet (ascii "!=") fun v w => truth (v ≠ w)]

def andOps : List Op := [.quiet (ascii "&&") fun v w => truth (v ≠ 0 && w ≠ 0)]

def orOps : List Op := [.quiet (ascii "||") fun v w => truth (v ≠ 0 || w ≠ 0)]

/-- The operators of each level, from the one that binds most tightly. -/
def levels : List (List Op) := [mulOps, addOps, cmpOps, eqOps, andOps, orOps]

/-- The loops of the levels in `tables` around the operands, the innermost first. -/
def climb (operand : Np → Int × Np) (tables : List (List Op)) : Np → Int × Np :=
  tables.foldl (fun f table => notedLevel table f) operand

def compounds : List Op :=
  [.quiet (ascii "+=") fun v w => wrap64 (v + w), .quiet (ascii "-=") fun v w => wrap64 (v - w),
    .quiet (ascii "*=") fun v w => wrap64 (v * w),
    .dividing (ascii "/=") fun v d => wrap64 (v.tdiv d), .dividing (ascii "%=") Int.tmod]

def notedSet (nm : Bytes) (v : Int) (a : Np) : Int × Np :=
  (v, { a with ap := (setVar nm v a.ap).2 }.note [.assigned nm v])

def notedAssign : Nat → Np → Int × Np
  | 0, a => (0, a.note [.exhausted])
  | n + 1, a =>
    let a := a.ws
    let nm := (arName a.ap.s).1
    let r := (arName a.ap.s).2.dropWhile fun c => c = space || c = tab
    let plain := fun a : Np => climb (notedUn (notedPrim (notedAssign n)) a.ap.s.length) levels a
    if a.ap.s.head?.any beginsName then
      if r.head? = some equals ∧ r[1]? ≠ some equals then
        let w := notedAssign n (a.goto (r.drop 1))
        notedSet nm w.1 w.2
      else
        match findOp compounds r with
        | some (o, s) =>
          let w := notedAssign n (a.goto s)
          let v := arVar nm w.2.ap.env
          notedSet nm (o.apply v w.1) (w.2.note (o.notes v w.1))
        | none => plain a
    else plain a

def notedEval (expr : Bytes) (env : Env) : Int × Np := notedAssign (expr.length + 1) ⟨⟨expr, env⟩, []⟩

/-! ## Without the notes -/

/-- `f` is `g` without the notes. -/
def Erases (f : Ap → Int × Ap) (g : Np → Int × Np) : Prop := ∀ a : Np, ((g a).1, (g a).2.ap) = f a.ap

variable {f : Ap → Int × Ap} {g : Np → Int × Np}

theorem Erases.prim (h : Erases f g) : Erases (arPrim f) (notedPrim g) := by
  intro a
  rw [notedPrim, arPrim]
  dsimp only [Np.ws]
  cases hs : (arWs a.ap).s with
  | nil => rfl
  | cons c s =>
    dsimp only
    by_cases hparen : c = lparen
    · have hr : (_, _) = f ⟨s, (arWs a.ap).env⟩ := h (Np.goto s ⟨arWs a.ap, a.notes⟩)
      rw [if_pos hparen, ← hr]
      split <;> rfl
    · rw [if_neg hparen]
      split
      · rfl
      · split <;> rfl

/-- The tests of `ar_un`. -/
theorem if_unary (c : UInt8) (r p : Int × Ap) :
    (if c = byte '-' then (wrap64 (-r.1), r.2) else if c = byte '+' then r
      else if c = byte '!' then (if r.1 = 0 then 1 else 0, r.2)
      else if c = byte '~' then (-r.1 - 1, r.2) else p) = if isUnary c then (unary c r.1, r.2) else p := by
  unfold unary
  by_cases hminus : c = byte '-'
  · rw [if_pos hminus, if_pos hminus, if_pos (show isUnary c = true by simp [isUnary, hminus])]
  rw [if_neg hminus, if_neg hminus]
  by_cases hplus : c = byte '+'
  · rw [if_pos hplus, if_pos hplus, if_pos (show isUnary c = true by simp [isUnary, hplus])]
  rw [if_neg hplus, if_neg hplus]
  by_cases hnot : c = byte '!'
  · rw [if_pos hnot, if_pos hnot, if_pos (show isUnary c = true by simp [isUnary, hnot])]
  rw [if_neg hnot, if_neg hnot]
  by_cases hcompl : c = byte '~'
  · rw [if_pos hcompl, if_pos (show isUnary c = true by simp [isUnary, hcompl])]
  · rw [if_neg hcompl, if_neg (show ¬isUnary c = true by simp [isUnary, hminus, hplus, hnot, hcompl])]

theorem Erases.un (h : Erases f g) (n : Nat) : Erases (arUn f n) (notedUn g n) := by
  induction n with
  | zero =>
    intro a
    rw [notedUn, h]
    split <;> rfl
  | succ n ih =>
    intro a
    rw [notedUn, arUn]
    dsimp only [Np.ws]
    cases hs : (arWs a.ap).s with
    | nil => exact h _
    | cons c s =>
      dsimp only
      have hr : (_, _) = arUn f n ⟨s, (arWs a.ap).env⟩ := ih (Np.goto s ⟨arWs a.ap, a.notes⟩)
      rw [← hr]
      rw [if_unary]
      by_cases hunary : isUnary c = true
      · rw [if_pos hunary, if_pos hunary]
      · rw [if_neg hunary, if_neg hunary]
        exact h _

/-- A table of the evaluator. -/
def plain (table : List Op) : List (Bytes × (Int → Int → Int)) := table.map fun o => (o.text, o.apply)

theorem operator_plain (table : List Op) (s : Bytes) :
    operator (plain table) s = (findOp table s).map fun r => (r.1.apply, r.2) := by
  rw [operator, findOp, plain, List.find?_map, Option.map_map, Option.map_map]
  rfl

theorem Erases.chain (h : Erases f g) (table : List Op) (n : Nat) (v : Int) :
    Erases (arChain (operator (plain table)) f n v) (notedChain table g n v) := by
  induction n generalizing v with
  | zero =>
    intro a
    rw [notedChain]
    split <;> rfl
  | succ n ih =>
    intro a
    rw [notedChain, arChain]
    dsimp only [Np.ws]
    rw [operator_plain]
    cases ho : findOp table (arWs a.ap).s with
    | none => rfl
    | some o =>
      have hr : (_, _) = f ⟨o.2, (arWs a.ap).env⟩ := h (Np.goto o.2 ⟨arWs a.ap, a.notes⟩)
      dsimp only [Option.map_some]
      rw [← hr]
      exact ih _ _

theorem Erases.level (h : Erases f g) (table : List Op) :
    Erases (arLevel (operator (plain table)) f) (notedLevel table g) := by
  intro a
  rw [arLevel, ← h a]
  exact h.chain table _ _ _

theorem apply_dividing (text : Bytes) (f : Int → Int → Int) :
    (Op.dividing text f).apply = fun v d => if d = 0 then 0 else f v d := by
  funext v d
  show (guarded f v d).1 = _
  unfold guarded
  split <;> rfl

theorem arMul_eq : arMul = arLevel (operator (plain mulOps)) := by
  simp only [plain, mulOps, List.map_cons, List.map_nil, apply_dividing]
  rfl

theorem arAdd_eq : arAdd = arLevel (operator (plain addOps)) := rfl

theorem arCmp_eq : arCmp = arLevel (operator (plain cmpOps)) := rfl

theorem arEq_eq : arEq = arLevel (operator (plain eqOps)) := rfl

theorem arAnd_eq : arAnd = arLevel (operator (plain andOps)) := rfl

theorem arOr_eq : arOr = arLevel (operator (plain orOps)) := rfl

theorem compound_eq (s : Bytes) : compound s = (findOp compounds s).map fun r => (r.1.apply, r.2) := by
  rw [← operator_plain]
  simp only [plain, compounds, List.map_cons, List.map_nil, apply_dividing]
  rfl

theorem Erases.climb (h : Erases f g) : Erases (arOr (arAnd (arEq (arCmp (arAdd (arMul f)))))) (climb g levels) := by
  rw [arMul_eq, arAdd_eq, arCmp_eq, arEq_eq, arAnd_eq, arOr_eq, Stsh.climb, levels]
  simp only [List.foldl]
  exact (((((h.level mulOps).level addOps).level cmpOps).level eqOps).level andOps).level orOps

theorem notedAssign_erases (n : Nat) : Erases (arAssign n) (notedAssign n) := by
  induction n with
  | zero => exact fun _ => rfl
  | succ n ih =>
    intro a
    have hplain := ((ih.prim).un a.ws.ap.s.length).climb a.ws
    rw [notedAssign, arAssign, ← show a.ws.ap = arWs a.ap from rfl]
    dsimp only
    generalize ((arName a.ws.ap.s).2.dropWhile fun c => c = space || c = tab) = r
    by_cases hname : a.ws.ap.s.head?.any beginsName = true
    · rw [if_pos hname, if_pos hname]
      by_cases hset : r.head? = some equals ∧ r[1]? ≠ some equals
      · have hr : (_, _) = arAssign n { a.ws.ap with s := r.drop 1 } := ih (a.ws.goto (r.drop 1))
        rw [if_pos hset, if_pos hset, ← hr]
        rfl
      · rw [if_neg hset, if_neg hset, compound_eq]
        cases hf : findOp compounds r with
        | none =>
          dsimp only [Option.map_none]
          exact hplain
        | some o =>
          have hr : (_, _) = arAssign n { a.ws.ap with s := o.2 } := ih (a.ws.goto o.2)
          dsimp only [Option.map_some]
          rw [← hr]
          rfl
    · rw [if_neg hname, if_neg hname]
      exact hplain

/-- Without the notes, `notedEval` is `arith_eval`. -/
theorem notedEval_erase (expr : Bytes) (env : Env) :
    ((notedEval expr env).1, (notedEval expr env).2.ap.env) = arithEval expr env := by
  have h : (_, _) = arAssign (expr.length + 1) ⟨expr, env⟩ := notedAssign_erases (expr.length + 1) ⟨⟨expr, env⟩, []⟩
  rw [arithEval, ← h]
  rfl

end Lorica.Proof.Stsh

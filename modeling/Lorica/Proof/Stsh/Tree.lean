import Lorica.Proof.Stsh.Notes

/-!
# The expression that the evaluator of stsh takes a text for

How far each function of the evaluator reads, and which operator it applies to what, depends on the
text alone. `treeOf` is the expression that any text is taken for, with zero for a missing operand;
`Tree.eval` is its value, and `Tree.Safe` says that it makes no division of the most negative `long`
by minus one.

`notedEval_tree`: the evaluator gives this value, and notes no such division just if the expression is
safe.
-/

namespace Lorica.Proof.Stsh

open Lorica.Impl.Stsh List

/-- Expressions, with the operators of the tables. -/
inductive Tree
  | number (v : Int)
  | name (nm : Bytes)
  | unary (c : UInt8) (e : Tree)
  | binary (o : Op) (l r : Tree)
  | assign (nm : Bytes) (e : Tree)
  | update (o : Op) (nm : Bytes) (e : Tree)

/-- The operator divides. -/
def Op.Divides (o : Op) : Prop := o.text ∈ [ascii "/", ascii "%", ascii "/=", ascii "%="]

instance (o : Op) : Decidable o.Divides := inferInstanceAs (Decidable (_ ∈ _))

namespace Tree

/-- The value of an expression, and the variables after it. -/
def eval : Tree → Env → Int × Env
  | number v, env => (v, env)
  | name nm, env => (arVar nm env, env)
  | unary c e, env => (Stsh.unary c (e.eval env).1, (e.eval env).2)
  | binary o l r, env => (o.apply (l.eval env).1 (r.eval (l.eval env).2).1, (r.eval (l.eval env).2).2)
  | assign nm e, env => ((e.eval env).1, (e.eval env).2.set nm (decimalInt (e.eval env).1))
  | update o nm e, env =>
    let v := o.apply (arVar nm (e.eval env).2) (e.eval env).1
    (v, (e.eval env).2.set nm (decimalInt v))

/-- No division in the expression is of the most negative `long` by minus one. -/
def Safe : Tree → Env → Prop
  | number _, _ => True
  | name _, _ => True
  | unary _ e, env => e.Safe env
  | binary o l r, env => l.Safe env ∧ r.Safe (l.eval env).2 ∧
      ¬(o.Divides ∧ (l.eval env).1 = -2 ^ 63 ∧ (r.eval (l.eval env).2).1 = -1)
  | assign _ e, env => e.Safe env
  | update o nm e, env => e.Safe env ∧ ¬(o.Divides ∧ arVar nm (e.eval env).2 = -2 ^ 63 ∧ (e.eval env).1 = -1)

end Tree

/-! ## Reading -/

/-- The text behind its blanks. -/
def skip (s : Bytes) : Bytes := s.dropWhile fun c => c = space || c = tab

/-- An operand: parentheses, a number or a name. -/
def readPrim (expr : Bytes → Tree × Bytes) (s : Bytes) : Tree × Bytes :=
  match skip s with
  | [] => (.number 0, [])
  | c :: q =>
    if c = lparen then
      let r := expr q
      (r.1, if (skip r.2).head? = some rparen then (skip r.2).drop 1 else skip r.2)
    else if isDigit c then (.number (strtol (c :: q)).1, (strtol (c :: q)).2)
    else if beginsName c then (.name (arName (c :: q)).1, (arName (c :: q)).2)
    else (.number 0, c :: q)

def readUn (prim : Bytes → Tree × Bytes) : Nat → Bytes → Tree × Bytes
  | 0, s => prim (skip s)
  | n + 1, s =>
    match skip s with
    | [] => prim []
    | c :: q => if isUnary c then (.unary c (readUn prim n q).1, (readUn prim n q).2) else prim (c :: q)

def readChain (table : List Op) (operand : Bytes → Tree × Bytes) : Nat → Tree → Bytes → Tree × Bytes
  | 0, e, s => (e, skip s)
  | n + 1, e, s =>
    match findOp table (skip s) with
    | none => (e, skip s)
    | some (o, q) => readChain table operand n (.binary o e (operand q).1) (operand q).2

def readLevel (table : List Op) (operand : Bytes → Tree × Bytes) (s : Bytes) : Tree × Bytes :=
  readChain table operand (operand s).2.length (operand s).1 (operand s).2

def readClimb (operand : Bytes → Tree × Bytes) (tables : List (List Op)) : Bytes → Tree × Bytes :=
  tables.foldl (fun f table => readLevel table f) operand

/-- An assignment, or the operators of all levels. -/
def readAssign : Nat → Bytes → Tree × Bytes
  | 0, s => (.number 0, s)
  | n + 1, s =>
    let nm := (arName (skip s)).1
    let r := skip (arName (skip s)).2
    let plain := fun s => readClimb (readUn (readPrim (readAssign n)) s.length) levels s
    if (skip s).head?.any beginsName then
      if r.head? = some equals ∧ r[1]? ≠ some equals then
        (.assign nm (readAssign n (r.drop 1)).1, (readAssign n (r.drop 1)).2)
      else
        match findOp compounds r with
        | some (o, q) => (.update o nm (readAssign n q).1, (readAssign n q).2)
        | none => plain (skip s)
    else plain (skip s)

/-- The expression that the evaluator takes a text for. -/
def treeOf (text : Bytes) : Tree := (readAssign (text.length + 1) text).1

theorem findOp_some {table : List Op} {s : Bytes} {r : Op × Bytes} (h : findOp table s = some r) :
    r.1 ∈ table ∧ s = r.1.text ++ r.2 := by
  obtain ⟨o, ho, rfl⟩ := Option.map_eq_some_iff.mp h
  refine ⟨mem_of_find?_eq_some ho, ?_⟩
  have hprefix : o.text.isPrefixOf s = true := find?_some (p := fun o : Op => o.text.isPrefixOf s) ho
  exact prefix_append_drop ( isPrefixOf_iff_prefix.mp hprefix)

/-! ## The evaluator -/

/-- No division of the most negative `long` by minus one is noted. -/
def Untrapped (notes : List Event) : Prop := .divided (-2 ^ 63) (-1) ∉ notes

theorem untrapped_append {ns ns' : List Event} : Untrapped (ns ++ ns') ↔ Untrapped ns ∧ Untrapped ns' := by
  simp only [Untrapped, mem_append, not_or]

theorem untrapped_exhausted : Untrapped [.exhausted] := by simp [Untrapped]

/-- The function `g` of the evaluator evaluates what `r` reads. -/
def Evaluates (g : Np → Int × Np) (r : Bytes → Tree × Bytes) : Prop :=
  ∀ s env notes, ∃ ns, g ⟨⟨s, env⟩, notes⟩ = (((r s).1.eval env).1, ⟨⟨(r s).2, ((r s).1.eval env).2⟩, ns⟩) ∧
    (Untrapped ns ↔ Untrapped notes ∧ (r s).1.Safe env)

/-- What an operator notes tells whether it divides. -/
def Op.Marked (o : Op) : Prop := ∀ v w, Untrapped (o.notes v w) ↔ ¬(o.Divides ∧ v = -2 ^ 63 ∧ w = -1)

variable {g : Np → Int × Np} {r : Bytes → Tree × Bytes}

theorem ws_skip (s : Bytes) (env : Env) (notes : List Event) : Np.ws ⟨⟨s, env⟩, notes⟩ = ⟨⟨skip s, env⟩, notes⟩ := rfl

theorem goto_mk (s t : Bytes) (env : Env) (notes : List Event) : Np.goto t ⟨⟨s, env⟩, notes⟩ = ⟨⟨t, env⟩, notes⟩ := rfl

theorem Evaluates.prim (h : Evaluates g r) : Evaluates (notedPrim g) (readPrim r) := by
  intro s env notes
  rw [notedPrim, readPrim, ws_skip]
  cases hs : skip s with
  | nil => exact ⟨notes, rfl, (and_iff_left trivial).symm⟩
  | cons c q =>
    dsimp only
    split
    · obtain ⟨ns, heq, hns⟩ := h q env notes
      refine ⟨ns, ?_, hns⟩
      rw [goto_mk, heq]
      dsimp only
      rw [ws_skip]
      dsimp only
      split <;> rfl
    split
    · exact ⟨notes, rfl, (and_iff_left trivial).symm⟩
    split
    · exact ⟨notes, rfl, (and_iff_left trivial).symm⟩
    · exact ⟨notes, rfl, (and_iff_left trivial).symm⟩

theorem Evaluates.un (h : Evaluates g r) (n : Nat) : Evaluates (notedUn g n) (readUn r n) := by
  induction n with
  | zero =>
    intro s env notes
    rw [notedUn, readUn, ws_skip]
    dsimp only
    split
    · obtain ⟨ns, heq, hns⟩ := h (skip s) env (notes ++ [.exhausted])
      exact ⟨ns, heq, by rw [hns, untrapped_append, and_iff_left untrapped_exhausted]⟩
    · exact h (skip s) env notes
  | succ n ih =>
    intro s env notes
    rw [notedUn, readUn, ws_skip]
    cases hs : skip s with
    | nil => exact h [] env notes
    | cons c q =>
      dsimp only
      split
      · obtain ⟨ns, heq, hns⟩ := ih q env notes
        refine ⟨ns, ?_, hns⟩
        rw [goto_mk, heq]
        rfl
      · exact h (c :: q) env notes

theorem Evaluates.chain {table : List Op} (htable : ∀ o ∈ table, o.Marked) (h : Evaluates g r) (n : Nat) (e : Tree)
    (s : Bytes) (env : Env) (notes ns₀ : List Event) (h₀ : Untrapped ns₀ ↔ Untrapped notes ∧ e.Safe env) :
    ∃ ns, notedChain table g n (e.eval env).1 ⟨⟨s, (e.eval env).2⟩, ns₀⟩ =
      (((readChain table r n e s).1.eval env).1,
        ⟨⟨(readChain table r n e s).2, ((readChain table r n e s).1.eval env).2⟩, ns⟩) ∧
      (Untrapped ns ↔ Untrapped notes ∧ (readChain table r n e s).1.Safe env) := by
  induction n generalizing e s ns₀ with
  | zero =>
    rw [notedChain, readChain, ws_skip]
    dsimp only
    split
    · exact ⟨_, rfl, untrapped_append.trans ((and_iff_left untrapped_exhausted).trans h₀)⟩
    · exact ⟨_, rfl, h₀⟩
  | succ n ih =>
    rw [notedChain, readChain, ws_skip]
    dsimp only
    cases hf : findOp table (skip s) with
    | none => exact ⟨_, rfl, h₀⟩
    | some p =>
      obtain ⟨o, q⟩ := p
      obtain ⟨ns, heq, hns⟩ := h q (e.eval env).2 ns₀
      dsimp only
      rw [goto_mk, heq]
      refine ih (.binary o e (r q).1) (r q).2 _ ?_
      rw [untrapped_append, htable o (findOp_some hf).1, hns, h₀, Tree.Safe, and_assoc, and_assoc]

theorem Evaluates.level {table : List Op} (htable : ∀ o ∈ table, o.Marked) (h : Evaluates g r) :
    Evaluates (notedLevel table g) (readLevel table r) := by
  intro s env notes
  obtain ⟨ns, heq, hns⟩ := h s env notes
  rw [notedLevel, heq]
  exact h.chain htable _ _ _ env notes ns hns

theorem Evaluates.climb {tables : List (List Op)} (htables : ∀ table ∈ tables, ∀ o ∈ table, o.Marked)
    (h : Evaluates g r) : Evaluates (climb g tables) (readClimb r tables) := by
  induction tables generalizing g r with
  | nil => exact h
  | cons table tables ih =>
    rw [forall_mem_cons] at htables
    exact ih htables.2 (h.level htables.1)

theorem marked_quiet {text : Bytes} {f : Int → Int → Int} (h : ¬(Op.quiet text f).Divides) : (Op.quiet text f).Marked :=
  fun _ _ => iff_of_true not_mem_nil fun hd => h hd.1

theorem marked_dividing {text : Bytes} {f : Int → Int → Int} (h : (Op.dividing text f).Divides) :
    (Op.dividing text f).Marked := by
  intro v d
  rw [and_iff_right h, Untrapped]
  dsimp only [Op.dividing, guarded]
  split
  · rename_i hzero
    simp [hzero]
  · simp [eq_comm]

theorem marked_levels : ∀ table ∈ levels, ∀ o ∈ table, o.Marked := by
  simp only [levels, mulOps, addOps, cmpOps, eqOps, andOps, orOps, forall_mem_cons]
  refine ⟨⟨marked_quiet ?_, marked_dividing ?_, marked_dividing ?_, ?_⟩, ⟨marked_quiet ?_, marked_quiet ?_, ?_⟩,
    ⟨marked_quiet ?_, marked_quiet ?_, marked_quiet ?_, marked_quiet ?_, ?_⟩, ⟨marked_quiet ?_, marked_quiet ?_, ?_⟩,
    ⟨marked_quiet ?_, ?_⟩, ⟨marked_quiet ?_, ?_⟩, ?_⟩
  all_goals first | decide | exact fun _ h => absurd h not_mem_nil

theorem marked_compounds : ∀ o ∈ compounds, o.Marked := by
  simp only [compounds, forall_mem_cons]
  refine ⟨marked_quiet ?_, marked_quiet ?_, marked_quiet ?_, marked_dividing ?_, marked_dividing ?_, ?_⟩
  all_goals first | decide | exact fun _ h => absurd h not_mem_nil

theorem untrapped_assigned {ns : List Event} {nm : Bytes} {v : Int} :
    Untrapped (ns ++ [.assigned nm v]) ↔ Untrapped ns := by
  simp [Untrapped]

theorem notedAssign_evaluates (n : Nat) : Evaluates (notedAssign n) (readAssign n) := by
  induction n with
  | zero =>
    intro s env notes
    exact ⟨_, rfl, by rw [untrapped_append, and_iff_left untrapped_exhausted]; exact (and_iff_left trivial).symm⟩
  | succ n ih =>
    intro s env notes
    have hplain := ((ih.prim).un (skip s).length).climb marked_levels (skip s) env notes
    rw [notedAssign, readAssign, ws_skip]
    dsimp only
    rw [show ((arName (skip s)).2.dropWhile fun c => c = space || c = tab) = skip (arName (skip s)).2 from rfl]
    generalize skip (arName (skip s)).2 = q
    split
    · split
      · obtain ⟨ns, heq, hns⟩ := ih (q.drop 1) env notes
        rw [goto_mk, heq]
        exact ⟨_, rfl, untrapped_assigned.trans hns⟩
      · cases ho : findOp compounds q with
        | none => exact hplain
        | some p =>
          obtain ⟨o, t⟩ := p
          obtain ⟨ns, heq, hns⟩ := ih t env notes
          dsimp only
          rw [goto_mk, heq]
          refine ⟨_, rfl, untrapped_assigned.trans (untrapped_append.trans ?_)⟩
          rw [marked_compounds o (findOp_some ho).1, hns, Tree.Safe, and_assoc]
    · exact hplain

/-- The evaluator gives the value of the expression that it takes the text for, and notes no division of the most
negative `long` by minus one just if the expression is safe. -/
theorem notedEval_tree (text : Bytes) (env : Env) :
    ((notedEval text env).1, (notedEval text env).2.ap.env) = (treeOf text).eval env ∧
      (Untrapped (notedEval text env).2.notes ↔ (treeOf text).Safe env) := by
  obtain ⟨ns, heq, hns⟩ := notedAssign_evaluates (text.length + 1) text env []
  rw [notedEval, heq]
  exact ⟨rfl, hns.trans (and_iff_right not_mem_nil)⟩

end Lorica.Proof.Stsh

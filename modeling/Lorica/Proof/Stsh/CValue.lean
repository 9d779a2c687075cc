import Lorica.Proof.Stsh.Climb

/-!
# The arithmetic of stsh and that of C

`Expr.eval` is the value of an expression in C, with the assignments that are made: none where a
result does not fit into a `long` or a division is not defined. The operands are taken from left to
right and a variable is read where it is updated; C leaves that order open, and gives no value to an
expression for which it matters, but for `&&` and `||`, whose right operand may be skipped. The
evaluator of stsh never skips it, so it agrees with C just if nothing is assigned there:
`arithmetic_agrees_iff`.
-/

namespace Lorica.Proof.Stsh

open Lorica.Impl.Stsh List

/-! ## The value in C -/

abbrev Store := Name → Int

def after (σ : Store) (us : List (Name × Int)) : Store := us.foldl (fun σ u => Function.update σ u.1 u.2) σ

/-- A result that has to fit into a `long`. -/
def fit (v : Int) : Option Int := if InLong v then some v else none

def Unary.eval : Unary → Int → Option Int
  | .minus, v => fit (-v)
  | .plus, v => some v
  | .not, v => some (truth (v = 0))
  | .complement, v => some (-v - 1)

def Binary.eval : Binary → Int → Int → Option Int
  | .mul, v, w => fit (v * w)
  | .div, v, w => if w = 0 then none else fit (v.tdiv w)
  | .rem, v, w => if w = 0 then none else (fit (v.tdiv w)).map fun _ => v.tmod w
  | .add, v, w => fit (v + w)
  | .sub, v, w => fit (v - w)
  | .le, v, w => some (truth (v ≤ w))
  | .ge, v, w => some (truth (v ≥ w))
  | .lt, v, w => some (truth (v < w))
  | .gt, v, w => some (truth (v > w))
  | .eq, v, w => some (truth (v = w))
  | .ne, v, w => some (truth (v ≠ w))
  | .and, v, w => some (truth (v ≠ 0 && w ≠ 0))
  | .or, v, w => some (truth (v ≠ 0 || w ≠ 0))

/-- The left operand decides, and the right one is skipped. -/
def Binary.decides : Binary → Int → Bool
  | .and, v => v = 0
  | .or, v => v ≠ 0
  | _, _ => false

/-- The operator of a compound assignment. -/
def Compound.binary : Compound → Binary
  | .add => .add
  | .sub => .sub
  | .mul => .mul
  | .div => .div
  | .rem => .rem

namespace Expr

/-- The value of an expression in C, and the assignments that are made. -/
def eval : Expr → Store → Option (Int × List (Name × Int))
  | lit l, _ => (fit l.value).map fun v => (v, [])
  | var x, σ => some (σ x, [])
  | un o e, σ => (e.eval σ).bind fun r => (o.eval r.1).map fun v => (v, r.2)
  | bin o l r, σ =>
    (l.eval σ).bind fun p =>
      if o.decides p.1 then some (truth (o = .or), p.2)
      else (r.eval (after σ p.2)).bind fun q => (o.eval p.1 q.1).map fun v => (v, p.2 ++ q.2)
  | assign x e, σ => (e.eval σ).map fun r => (r.1, r.2 ++ [(x, r.1)])
  | update o x e, σ =>
    (e.eval σ).bind fun r => (o.binary.eval (after σ r.2 x) r.1).map fun v => (v, r.2 ++ [(x, v)])

/-- The operands that are skipped. -/
def skipped : Expr → Store → List Expr
  | lit _, _ | var _, _ => []
  | un _ e, σ | assign _ e, σ | update _ _ e, σ => e.skipped σ
  | bin o l r, σ =>
    l.skipped σ ++ ((l.eval σ).map fun p => if o.decides p.1 then [r] else r.skipped (after σ p.2)).getD []

/-- The number of assignments in an expression. -/
def assignments : Expr → Nat
  | lit _ | var _ => 0
  | un _ e => e.assignments
  | bin _ l r => l.assignments + r.assignments
  | assign _ e | update _ _ e => e.assignments + 1

/-- There is a division or a remainder in the expression. -/
def divides : Expr → Bool
  | lit _ | var _ => false
  | un _ e | assign _ e => e.divides
  | bin o l r => o = .div || o = .rem || l.divides || r.divides
  | update o _ e => o = .div || o = .rem || e.divides

/-- The variables that the expression assigns to. -/
def assigned : Expr → Finset Name
  | lit _ | var _ => ∅
  | un _ e => e.assigned
  | bin _ l r => l.assigned ∪ r.assigned
  | assign x e | update _ x e => insert x e.assigned

/-- Every name has at most 63 characters. -/
def Short : Expr → Prop
  | lit _ => True
  | var x => x.text.length ≤ 63
  | un _ e => e.Short
  | bin _ l r => l.Short ∧ r.Short
  | assign x e | update _ x e => x.text.length ≤ 63 ∧ e.Short

end Expr

/-! ## The variables as a store -/

def storeOf (env : Env) : Store := fun x => arVar x.text env

/-- The variables of `xs` that are not set. -/
def missing (env : Env) (xs : Finset Name) : Finset Name := xs.filter fun x => (env.get x.text).isNone = true

/-- There are slots for all variables of `xs`. -/
def Room (env : Env) (xs : Finset Name) : Prop := env.slots.length + (missing env xs).card ≤ envMax

/-- The assignments among the notes. -/
def updates (notes : List Event) : List (Bytes × Int) :=
  notes.filterMap fun e => if let .assigned nm v := e then some (nm, v) else none

variable {env : Env} {x y : Name} {v w : Int} {xs : Finset Name} {e : Expr} {σ : Store}

theorem not_mem_name {c : UInt8} (hc : isNameChar c = false) (x : Name) : c ∉ x.text := by
  intro h
  rw [x.isName.2 c h] at hc
  exact absurd hc (by decide)

/-- A slot holds one variable. -/
theorem holds_unique {s : Slot} (hx : s.holds x.text = true) (hy : s.holds y.text = true) : x = y := by
  simp only [Slot.holds, Bool.and_eq_true, decide_eq_true_eq] at hx hy
  have hequals := not_mem_name (c := equals) (by decide)
  -- where one name ended before the other, the longer one would have an equals sign in it
  have hshort : ∀ {x y : Name}, s.text.take y.text.length = y.text → s.text[x.text.length]? = some equals →
      y.text.length ≤ x.text.length := by
    intro x y hy hx
    by_contra hlt
    refine hequals y ?_
    rw [← hy]
    refine mem_of_getElem? (i := x.text.length) ?_
    rw [getElem?_take_of_lt (by omega), hx]
  have hlen : x.text.length = y.text.length := Nat.le_antisymm (hshort hx.1 hy.2) (hshort hy.1 hx.2)
  have htext : x.text = y.text := by rw [← hx.1, ← hy.1, hlen]
  cases x
  cases y
  cases htext
  rfl

theorem find?_set_of_not {α : Type} {p : α → Bool} {l : List α} {i : Nat} {a : α} (ha : p a = false)
    (h : ∀ b ∈ l[i]?, p b = false) : (l.set i a).find? p = l.find? p := by
  induction l generalizing i with
  | nil => rfl
  | cons b l ih =>
    cases i with
    | zero =>
      have hb : p b = false := h b rfl
      rw [set_cons_zero, find?_cons, find?_cons, ha, hb]
    | succ i =>
      rw [set_cons_succ, find?_cons, find?_cons, ih h]

/-- A new variable needs a slot. -/
theorem slots_set (hroom : (env.get x.text).isSome = true ∨ env.slots.length < envMax) (value : Bytes) :
    (env.set x.text value).slots = if (env.get x.text).isSome then
        env.slots.set (env.slots.findIdx (Slot.holds x.text)) (Slot.copy (x.text ++ equals :: value))
      else env.slots ++ [Slot.copy (x.text ++ equals :: value)] := by
  have hsome : (env.get x.text).isSome = true ↔ env.slots.findIdx (Slot.holds x.text) < env.slots.length := by
    rw [Env.get, Option.isSome_map, find?_isSome, findIdx_lt_length]
  by_cases h : (env.get x.text).isSome = true
  · rw [if_pos h]
    exact congrArg Env.slots (if_pos (hsome.mp h))
  · rw [if_neg h]
    have hfree : env.slots.length < envMax := hroom.resolve_left h
    exact congrArg Env.slots ((if_neg (fun hlt => h (hsome.mpr hlt))).trans (dif_pos hfree))

variable {value : Bytes} {z : Int} {o : Binary} {us : List (Name × Int)}

theorem holds_copy (hvalue : (0 : UInt8) ∉ value) (hfits : x.text.length + 1 + value.length < slotSize) :
    (Slot.copy (x.text ++ equals :: value)).holds x.text = true := by
  have htext : (Slot.copy (x.text ++ equals :: value)).text = x.text ++ equals :: value := by
    refine text_copy ?_ (by simp; omega)
    simp [not_mem_name (c := 0) (by decide) x, hvalue, equals]
  simp [Slot.holds, htext]

/-- The other variables keep their values. -/
theorem get_set_of_ne (hvalue : (0 : UInt8) ∉ value) (hfits : x.text.length + 1 + value.length < slotSize)
    (hroom : (env.get x.text).isSome = true ∨ env.slots.length < envMax) (hne : y ≠ x) :
    (env.set x.text value).get y.text = env.get y.text := by
  have hcopy : (Slot.copy (x.text ++ equals :: value)).holds y.text = false := by
    by_contra h
    exact hne (holds_unique (by simpa using h) (holds_copy hvalue hfits))
  have hfind : (env.set x.text value).slots.find? (Slot.holds y.text) = env.slots.find? (Slot.holds y.text) := by
    rw [slots_set hroom]
    split
    · refine find?_set_of_not hcopy fun s hs => ?_
      by_contra h
      obtain ⟨hlt, rfl⟩ := List.getElem?_eq_some_iff.mp hs
      exact hne (holds_unique (by simpa using h) (findIdx_getElem (w := hlt)))
    · rw [find?_append, find?_singleton, if_neg (by simp [hcopy]), Option.or_none]
  rw [Env.get, hfind]
  rfl

theorem Room.free (h : Room env xs) (hx : x ∈ xs) : (env.get x.text).isSome = true ∨ env.slots.length < envMax := by
  by_cases hget : (env.get x.text).isSome = true
  · exact .inl hget
  · have hmem : x ∈ missing env xs := Finset.mem_filter.mpr ⟨hx, by simpa using hget⟩
    have hpos := Finset.card_pos.mpr ⟨x, hmem⟩
    unfold Room at h
    omega

/-- An assignment uses a slot only for a variable that was missing. -/
theorem Room.set (h : Room env xs) (hx : x ∈ xs) (hvalue : (0 : UInt8) ∉ value)
    (hfits : x.text.length + 1 + value.length < slotSize) : Room (env.set x.text value) xs := by
  have hfree := h.free hx
  have hget : (env.set x.text value).get x.text = some value :=
    get_set (not_mem_name (by decide) x) hvalue hfits hfree
  have hmissing : missing (env.set x.text value) xs = (missing env xs).erase x := by
    ext y
    simp only [missing, Finset.mem_filter]
    by_cases hy : y = x
    · subst hy
      simp [hget]
    · rw [get_set_of_ne hvalue hfits hfree hy]
      simp [hy]
  unfold Room at h ⊢
  rw [hmissing, slots_set hfree]
  split
  · rename_i hsome
    have hnot : x ∉ missing env xs := fun hmem => by
      have hnone := (Finset.mem_filter.mp hmem).2
      rw [Option.isNone_iff_eq_none] at hnone
      simp [hnone] at hsome
    rw [length_set, Finset.erase_eq_of_notMem hnot]
    exact h
  · rename_i hnone
    have hmem : x ∈ missing env xs := Finset.mem_filter.mpr ⟨hx, by simpa using hnone⟩
    have hcard := Finset.card_erase_add_one hmem
    rw [length_append, length_singleton]
    omega

/-! ## Numbers and their texts -/

theorem wrap64_of_inLong (h : InLong v) : wrap64 v = v := by
  unfold InLong at h
  rw [wrap64, Int.bmod_eq_of_le] <;> omega

theorem digitOf_digit {c : UInt8} (h : isDigit c = true) : digitOf c = c.toNat - 48 := if_pos h

theorem number_digits {ds : Bytes} (h : ∀ c ∈ ds, isDigit c = true) :
    ds.foldl (fun v c => 10 * v + digitOf c) 0 = digitsValue ds := by
  rw [digitsValue]
  refine foldl_ext _ _ _ fun v c hc => ?_
  rw [digitOf_digit (h c hc)]

/-- A number that is not zero does not begin with a zero. -/
theorem head_decimal {n : Nat} (hn : n ≠ 0) : (decimal n).head? ≠ some (byte '0') := by
  have hne : Nat.digits 10 n ≠ [] := Nat.digits_ne_nil_iff_ne_zero.mpr hn
  have hlast := Nat.getLast_digit_ne_zero 10 hn
  have hlt : (Nat.digits 10 n).getLast hne < 10 := Nat.digits_lt_base (by decide) (getLast_mem hne)
  rw [decimal, if_neg hn, head?_map, head?_reverse, getLast?_eq_some_getLast hne]
  intro h
  have hnat := congrArg UInt8.toNat (Option.some.inj h)
  rw [toNat_digit hlt] at hnat
  have hzero : (byte '0').toNat = 48 := by decide
  exact hlast (by omega)

theorem strtolDigits_decimal (n : Nat) (negative : Bool) :
    strtolDigits 10 negative (decimal n) = (if negative then max (-2 ^ 63) (-(n : Int)) else min
      (2 ^ 63 - 1) n, []) := by
  have hdigits := isDigit_decimal n
  have htake : ((decimal n).takeWhile fun c => digitOf c < 10) = decimal n := by
    refine takeWhile_eq_self_iff.mpr fun c hc => ?_
    exact decide_eq_true (digit_plain (hdigits c hc)).2.2.2.2.2.2
  unfold strtolDigits
  dsimp only
  rw [htake, number_digits hdigits, digitsValue_decimal, drop_length]

/-- `strtol` reads a printed `long` back. -/
theorem strtol_decimalInt (h : InLong v) : (strtol (decimalInt v)).1 = v := by
  unfold InLong at h
  obtain ⟨c, q, hcons⟩ := exists_cons_of_ne_nil (decimal_ne_nil v.natAbs)
  have hc : isDigit c = true := isDigit_decimal v.natAbs c (by rw [hcons]; exact mem_cons_self)
  obtain ⟨hspace, hminus, hplus, -, -, -, hdigit⟩ := digit_plain hc
  by_cases hzero : v = 0
  · subst hzero
    decide
  have hhead : c ≠ byte '0' := by
    have hne := head_decimal (Int.natAbs_ne_zero.mpr hzero)
    rw [hcons] at hne
    exact fun h => hne (congrArg some h)
  by_cases hneg : v < 0
  · have hstrtol : strtol (45 :: decimal v.natAbs) = strtolDigits 10 true (decimal v.natAbs) := by
      rw [hcons]
      unfold strtol
      simp [show isSpace 45 = false by decide, show byte '-' = 45 by decide, hdigit, hhead]
    rw [decimalInt, if_pos hneg, hstrtol, strtolDigits_decimal, if_pos rfl]
    show max (-2 ^ 63) (-(v.natAbs : Int)) = v
    omega
  · have hstrtol : strtol (decimal v.natAbs) = strtolDigits 10 false (decimal v.natAbs) := by
      rw [hcons, strtol_digit hc, if_pos hhead]
    rw [decimalInt, if_neg hneg, hstrtol, strtolDigits_decimal, if_neg (by decide)]
    show min (2 ^ 63 - 1) (v.natAbs : Int) = v
    omega

theorem length_decimalInt_long (h : InLong v) : (decimalInt v).length ≤ 20 := by
  unfold InLong at h
  have hlen : (decimal v.natAbs).length ≤ 18 + 1 := length_decimal_le (by omega)
  rw [decimalInt]
  split
  · rw [length_cons]; omega
  · omega

theorem nul_not_mem_decimalInt (v : Int) : (0 : UInt8) ∉ decimalInt v := by
  intro h
  obtain h | h := mem_decimalInt h
  · exact absurd h (by decide)
  · exact absurd h (by decide)

/-! ## The outcome of the evaluator -/

/-- The store after an assignment. -/
theorem store_set (hx : x.text.length ≤ 63) (hv : InLong v)
    (hroom : (env.get x.text).isSome = true ∨ env.slots.length < envMax) :
    storeOf (env.set x.text (decimalInt v)) = Function.update (storeOf env) x v := by
  have hfits : x.text.length + 1 + (decimalInt v).length < slotSize := by
    have hlen := length_decimalInt_long hv
    unfold slotSize
    omega
  have hnul := nul_not_mem_decimalInt v
  funext y
  by_cases hy : y = x
  · subst hy
    rw [Function.update_self, storeOf, arVar, get_set (not_mem_name (by decide) y) hnul hfits hroom]
    exact strtol_decimalInt hv
  · rw [Function.update_of_ne hy, storeOf, arVar, get_set_of_ne hnul hfits hroom hy]
    rfl

theorem Binary.sound (o : Binary) : o.op.Sound := by
  have h : ∀ {j}, (hj : j < 6) → ∀ p ∈ opsAt j, p.Sound := by
    intro j hj p hp
    rw [opsAt, getD_eq_getElem _ _ (show j < levels.length from hj)] at hp
    exact sound_levels _ (getElem_mem _) p hp
  exact h (rank_lt o) _ (findOp_some (findOp_binary o)).1

theorem Compound.sound (o : Compound) : o.op.Sound := by
  have hown : findOp compounds o.op.text = some (o.op, []) := by cases o <;> rfl
  exact sound_compounds _ (findOp_some hown).1

theorem inLong_run (e : Expr) (env : Env) : InLong (e.run env).value := by
  induction e generalizing env with
  | lit l => show InLong (min (2 ^ 63 - 1) _); unfold InLong; omega
  | var x => exact inLong_arVar _ _
  | un o e ih => exact inLong_unary _ (ih env)
  | bin o l r ihl ihr => exact (o.sound.2 _ _ (ihl env) (ihr _)).1
  | assign x e ih => exact ih env
  | update o x e ih => exact (o.sound.2 _ _ (inLong_arVar _ _) (ih env)).1

theorem updates_append (ns ns' : List Event) : updates (ns ++ ns') = updates ns ++ updates ns' := filterMap_append

theorem updates_binary (o : Binary) (v w : Int) : updates (o.op.notes v w) = [] := by
  have hdividing : ∀ f, updates (guarded f v w).2 = [] := fun f => by unfold guarded; split <;> rfl
  cases o with
  | div | rem => exact hdividing _
  | _ => rfl

theorem Compound.op_eq (o : Compound) : o.op.apply = o.binary.op.apply ∧ o.op.notes = o.binary.op.notes := by
  cases o <;> exact ⟨rfl, rfl⟩

theorem updates_assign (x : Name) (v : Int) (o : Binary) (a b : Int) (r : Outcome) :
    updates (r.assign x v (o.op.notes a b)).notes = updates r.notes ++ [(x.text.take 63, v)] := by
  show updates (r.notes ++ o.op.notes a b ++ [.assigned _ v]) = _
  rw [updates_append, updates_append, updates_binary, append_nil]
  rfl

/-- Every assignment of an expression is made. -/
theorem length_updates_run (e : Expr) (env : Env) : (updates (e.run env).notes).length = e.assignments := by
  induction e generalizing env with
  | lit l => rfl
  | var x => rfl
  | un o e ih => exact ih env
  | bin o l r ihl ihr =>
    show (updates ((l.run env).notes ++ (r.run _).notes ++ o.op.notes _ _)).length = l.assignments + r.assignments
    rw [updates_append, updates_append, updates_binary, append_nil, length_append, ihl, ihr]
  | assign x e ih =>
    show (updates ((e.run env).notes ++ [] ++ [.assigned _ _])).length = e.assignments + 1
    rw [append_nil, updates_append, length_append, ih]
    rfl
  | update o x e ih =>
    show (updates ((e.run env).assign x _ _).notes).length = e.assignments + 1
    rw [o.op_eq.2, updates_assign, length_append, ih]
    rfl

/-- Without an assignment, the variables stay as they are. -/
theorem env_run (h : e.assignments = 0) (env : Env) : (e.run env).env = env := by
  induction e generalizing env with
  | lit l => rfl
  | var x => rfl
  | un o e ih => exact ih h env
  | bin o l r ihl ihr =>
    obtain ⟨hl, hr⟩ := Nat.add_eq_zero_iff.mp h
    show (r.run (l.run env).env).env = env
    rw [ihl hl, ihr hr]
  | assign x e ih => exact absurd h (Nat.succ_ne_zero _)
  | update o x e ih => exact absurd h (Nat.succ_ne_zero _)

/-- No division is noted that traps. -/
def Safe (notes : List Event) : Prop := ∀ v d, .divided v d ∈ notes → ¬Traps v d

theorem Safe.append {ns ns' : List Event} (h : Safe ns) (h' : Safe ns') : Safe (ns ++ ns') :=
  fun v d hmem => (mem_append.mp hmem).elim (h v d) (h' v d)

theorem safe_nil : Safe [] := fun _ _ h => absurd h not_mem_nil

theorem safe_assigned (nm : Bytes) (v : Int) : Safe [.assigned nm v] := fun _ _ h => by simp at h

theorem safe_binary (o : Binary) (h : (o = .div || o = .rem) = false) (v w : Int) : Safe (o.op.notes v w) := by
  cases o with
  | div | rem => exact absurd h (by decide)
  | _ => exact safe_nil

/-- Without a division, none is noted. -/
theorem safe_run (h : e.divides = false) (env : Env) : Safe (e.run env).notes := by
  induction e generalizing env with
  | lit l => exact safe_nil
  | var x => exact safe_nil
  | un o e ih => exact ih h env
  | bin o l r ihl ihr =>
    simp only [Expr.divides, Bool.or_eq_false_iff] at h
    exact ((ihl h.1.2 env).append (ihr h.2 _)).append (safe_binary o (by simp [h.1.1]) _ _)
  | assign x e ih => exact ((ih h env).append safe_nil).append (safe_assigned _ _)
  | update o x e ih =>
    simp only [Expr.divides, Bool.or_eq_false_iff] at h
    refine ((ih h.2 env).append ?_).append (safe_assigned _ _)
    rw [o.op_eq.2]
    refine safe_binary _ ?_ _ _
    have h' := h.1
    revert h'
    cases o <;> decide

/-! ## Operators in C and in the evaluator -/

theorem fit_eq_some : fit v = some z ↔ InLong v ∧ v = z := by
  unfold fit
  split
  · rename_i h
    simp [h]
  · rename_i h
    simp [h]

theorem Unary.char_of_eval {o : Unary} (h : o.eval v = some z) : unary o.char v = z := by
  cases o with
  | minus =>
    obtain ⟨hfit, rfl⟩ := fit_eq_some.mp h
    rw [unary, Unary.char, if_pos rfl, wrap64_of_inLong hfit]
  | plus => rw [unary, Unary.char, if_neg (by decide), if_pos rfl, ← Option.some.inj h]
  | not =>
    rw [unary, Unary.char, if_neg (by decide), if_neg (by decide), if_pos rfl, ← Option.some.inj h, truth]
    simp
  | complement =>
    rw [unary, if_neg (by decide), if_neg (by decide), if_neg (by decide), ← Option.some.inj h]

/-- The quotient that does not fit is the one of the division that traps. -/
theorem not_traps (hw : w ≠ 0) (h : fit (v.tdiv w) = some z) : ¬Traps v w := by
  rintro (hzero | ⟨rfl, rfl⟩)
  · exact hw hzero
  · obtain ⟨hfit, -⟩ := fit_eq_some.mp h
    exact absurd hfit (by decide)

theorem safe_guarded (f : Int → Int → Int) (hw : w ≠ 0) (h : fit (v.tdiv w) = some z) :
    (guarded f v w).1 = f v w ∧ Safe (guarded f v w).2 := by
  rw [guarded, if_neg hw]
  refine ⟨rfl, fun a d hmem => ?_⟩
  cases mem_singleton.mp hmem
  exact not_traps hw h

theorem Binary.apply_of_eval (h : o.eval v w = some z) : o.op.apply v w = z ∧ Safe (o.op.notes v w) := by
  have hwrap : ∀ {i : Int}, fit i = some z → wrap64 i = z := by
    intro i hi
    obtain ⟨hfit, rfl⟩ := fit_eq_some.mp hi
    exact wrap64_of_inLong hfit
  cases o with
  | mul | add | sub => exact ⟨hwrap h, safe_nil⟩
  | div =>
    by_cases hw : w = 0
    · exact absurd ((if_pos hw).symm.trans h) (by simp)
    have hfit : fit (v.tdiv w) = some z := (if_neg hw).symm.trans h
    obtain ⟨hvalue, hsafe⟩ := safe_guarded (fun v d => wrap64 (v.tdiv d)) hw hfit
    exact ⟨hvalue.trans (hwrap hfit), hsafe⟩
  | rem =>
    by_cases hw : w = 0
    · exact absurd ((if_pos hw).symm.trans h) (by simp)
    have hmap : (fit (v.tdiv w)).map (fun _ => v.tmod w) = some z := (if_neg hw).symm.trans h
    obtain ⟨q, hfit, rfl⟩ := Option.map_eq_some_iff.mp hmap
    exact safe_guarded Int.tmod hw hfit
  | _ => exact ⟨Option.some.inj h, safe_nil⟩

theorem Binary.apply_of_decides (h : o.decides v = true) (w : Int) :
    o.op.apply v w = truth (o = .or) ∧ o.op.notes v w = [] := by
  cases o with
  | and =>
    have hv : v = 0 := of_decide_eq_true h
    subst hv
    exact ⟨rfl, rfl⟩
  | or =>
    have hv : v ≠ 0 := of_decide_eq_true h
    refine ⟨?_, rfl⟩
    show truth (v ≠ 0 || w ≠ 0) = truth (decide (Binary.or = .or))
    simp [hv]
  | _ => exact absurd h Bool.false_ne_true

/-! ## The evaluator and C -/

theorem after_append (σ : Store) (us us' : List (Name × Int)) : after σ (us ++ us') = after (after σ us) us' :=
  foldl_append

/-- What an expression comes to in the evaluator is what it comes to in C. -/
structure Matches (env : Env) (r : Outcome) (v : Int) (us : List (Name × Int)) : Prop where
  value : r.value = v
  updates : updates r.notes = us.map fun u => (u.1.text, u.2)
  store : storeOf r.env = after (storeOf env) us
  safe : Safe r.notes

/-- An operand that is skipped must not do anything. -/
def Expr.Idle (e : Expr) : Prop := e.assignments = 0 ∧ e.divides = false

theorem Outcome.assign_matches {r : Outcome} {notes : List Event} (hroom : Room r.env xs)
    (hx : x ∈ xs) (hshort : x.text.length ≤ 63) (hv : InLong v) (hr : Matches env r w us)
    (hnotes : Stsh.updates notes = []) (hsafe : Safe notes) :
    Matches env (r.assign x v notes) v (us ++ [(x, v)]) ∧ Room (r.assign x v notes).env xs := by
  have hcut : x.text.take 63 = x.text := take_of_length_le hshort
  have hfits : x.text.length + 1 + (decimalInt v).length < slotSize := by
    have hlen := length_decimalInt_long hv
    unfold slotSize
    omega
  refine ⟨⟨rfl, ?_, ?_, (hr.safe.append hsafe).append (safe_assigned _ _)⟩, ?_⟩
  · show Stsh.updates (r.notes ++ notes ++ [.assigned (x.text.take 63) v]) = _
    rw [updates_append, updates_append, hr.updates, hnotes, hcut, append_nil, map_append]
    rfl
  · show storeOf (r.env.set (x.text.take 63) (decimalInt v)) = _
    rw [hcut, store_set hshort hv (hroom.free hx), hr.store, after_append]
    rfl
  · show Room (r.env.set (x.text.take 63) (decimalInt v)) xs
    rw [hcut]
    exact hroom.set hx (nul_not_mem_decimalInt v) hfits

theorem skipped_bin {l r : Expr} {p : Int × List (Name × Int)} (hp : l.eval σ = some p) :
    (Expr.bin o l r).skipped σ = l.skipped σ ++ if o.decides p.1 then [r] else r.skipped (after σ p.2) := by
  rw [Expr.skipped, hp]
  rfl

/-- An operand that does nothing may be skipped. -/
theorem Expr.Idle.run (h : e.Idle) (env : Env) :
    (e.run env).env = env ∧ updates (e.run env).notes = [] ∧ Safe (e.run env).notes :=
  ⟨env_run h.1 env, eq_nil_of_length_eq_zero ((length_updates_run e env).trans h.1), safe_run h.2 env⟩

theorem run_matches (hshort : e.Short) (hxs : e.assigned ⊆ xs) (hroom : Room env xs)
    (heval : e.eval (storeOf env) = some (v, us)) (hidle : ∀ d ∈ e.skipped (storeOf env), d.Idle) :
    Matches env (e.run env) v us ∧ Room (e.run env).env xs := by
  induction e generalizing env v us with
  | lit l =>
    obtain ⟨z, hfit, hz⟩ := Option.map_eq_some_iff.mp heval
    obtain ⟨hlong, rfl⟩ := fit_eq_some.mp hfit
    cases hz
    refine ⟨⟨?_, rfl, rfl, safe_nil⟩, hroom⟩
    show min (2 ^ 63 - 1) (l.value : Int) = l.value
    unfold InLong at hlong
    omega
  | var x =>
    cases Option.some.inj heval
    refine ⟨⟨?_, rfl, rfl, safe_nil⟩, hroom⟩
    show arVar (x.text.take 63) env = arVar x.text env
    rw [take_of_length_le hshort]
  | un o e ih =>
    obtain ⟨r, hr, hmap⟩ := Option.bind_eq_some_iff.mp heval
    obtain ⟨z, hz, hvz⟩ := Option.map_eq_some_iff.mp hmap
    cases hvz
    obtain ⟨hmatch, hroom'⟩ := ih hshort hxs hroom hr hidle
    refine ⟨⟨?_, hmatch.updates, hmatch.store, hmatch.safe⟩, hroom'⟩
    show unary o.char (e.run env).value = _
    rw [hmatch.value]
    exact Unary.char_of_eval hz
  | bin o l r ihl ihr =>
    obtain ⟨p, hp, hrest⟩ := Option.bind_eq_some_iff.mp heval
    rw [skipped_bin hp] at hidle
    have hsub := Finset.union_subset_iff.mp hxs
    obtain ⟨hl, hrooml⟩ := ihl hshort.1 hsub.1 hroom hp fun d hd => hidle d (mem_append_left _ hd)
    by_cases hdecides : o.decides p.1 = true
    · rw [if_pos hdecides] at hrest hidle
      cases Option.some.inj hrest
      obtain ⟨henv, hupdates, hsafe⟩ := (hidle r (by simp)).run (l.run env).env
      obtain ⟨happly, hnotes⟩ := Binary.apply_of_decides hdecides (r.run (l.run env).env).value
      rw [← hl.value] at happly hnotes
      refine ⟨⟨happly, ?_, ?_, ?_⟩, ?_⟩
      · show updates ((l.run env).notes ++ (r.run _).notes ++ o.op.notes _ _) = _
        rw [hnotes, append_nil, updates_append, hupdates, append_nil, hl.updates]
      · show storeOf (r.run _).env = _
        rw [henv, hl.store]
      · show Safe ((l.run env).notes ++ (r.run _).notes ++ o.op.notes _ _)
        rw [hnotes]
        exact (hl.safe.append hsafe).append safe_nil
      · show Room (r.run _).env xs
        rw [henv]
        exact hrooml
    · rw [if_neg hdecides] at hrest hidle
      obtain ⟨q, hq, hmap⟩ := Option.bind_eq_some_iff.mp hrest
      obtain ⟨z, hz, hvz⟩ := Option.map_eq_some_iff.mp hmap
      cases hvz
      rw [← hl.store] at hq hidle
      obtain ⟨hr, hroomr⟩ := ihr hshort.2 hsub.2 hrooml hq fun d hd => hidle d (mem_append_right _ hd)
      obtain ⟨happly, hsafe⟩ := Binary.apply_of_eval hz
      rw [← hl.value, ← hr.value] at happly hsafe
      refine ⟨⟨happly, ?_, ?_, (hl.safe.append hr.safe).append hsafe⟩, hroomr⟩
      · show updates ((l.run env).notes ++ (r.run _).notes ++ o.op.notes _ _) = _
        rw [updates_append, updates_append, updates_binary, append_nil, hl.updates, hr.updates, map_append]
      · show storeOf (r.run _).env = _
        rw [hr.store, hl.store, after_append]
  | assign x e ih =>
    obtain ⟨r, hr, hmap⟩ := Option.map_eq_some_iff.mp heval
    cases hmap
    obtain ⟨hx, hxs'⟩ := Finset.insert_subset_iff.mp hxs
    obtain ⟨hmatch, hroom'⟩ := ih hshort.2 hxs' hroom hr hidle
    have hassign := Outcome.assign_matches hroom' hx hshort.1 (inLong_run e env) hmatch rfl safe_nil
    rw [hmatch.value] at hassign
    show Matches env ((e.run env).assign x (e.run env).value []) _ _ ∧
      Room ((e.run env).assign x (e.run env).value []).env xs
    rw [hmatch.value]
    exact hassign
  | update o x e ih =>
    obtain ⟨r, hr, hmap⟩ := Option.bind_eq_some_iff.mp heval
    obtain ⟨z, hz, hvz⟩ := Option.map_eq_some_iff.mp hmap
    cases hvz
    obtain ⟨hx, hxs'⟩ := Finset.insert_subset_iff.mp hxs
    obtain ⟨hmatch, hroom'⟩ := ih hshort.2 hxs' hroom hr hidle
    have hcut : x.text.take 63 = x.text := take_of_length_le hshort.1
    have hvar : arVar (x.text.take 63) (e.run env).env = after (storeOf env) r.2 x := by rw [hcut, ← hmatch.store]; rfl
    obtain ⟨happly, hsafe⟩ := Binary.apply_of_eval hz
    have hlong : InLong v := by
      rw [← happly, ← hvar, ← hmatch.value]
      exact (o.binary.sound.2 _ _ (inLong_arVar _ _) (inLong_run e env)).1
    have hassign := Outcome.assign_matches hroom' hx hshort.1 hlong hmatch (updates_binary o.binary _ _) hsafe
    show Matches env ((e.run env).assign x (o.op.apply _ _) (o.op.notes _ _)) _ _ ∧
      Room ((e.run env).assign x (o.op.apply _ _) (o.op.notes _ _)).env xs
    rw [o.op_eq.1, o.op_eq.2, hvar, hmatch.value, happly]
    exact hassign

/-- An assignment is made, or it is in an operand that is skipped. -/
theorem length_updates_eval (heval : e.eval σ = some (v, us)) :
    us.length + ((e.skipped σ).map Expr.assignments).sum = e.assignments := by
  induction e generalizing σ v us with
  | lit l =>
    obtain ⟨z, -, hz⟩ := Option.map_eq_some_iff.mp heval
    cases hz
    rfl
  | var x =>
    cases Option.some.inj heval
    rfl
  | un o e ih =>
    obtain ⟨r, hr, hmap⟩ := Option.bind_eq_some_iff.mp heval
    obtain ⟨z, -, hvz⟩ := Option.map_eq_some_iff.mp hmap
    cases hvz
    exact ih hr
  | bin o l r ihl ihr =>
    obtain ⟨p, hp, hrest⟩ := Option.bind_eq_some_iff.mp heval
    have hl := ihl hp
    rw [skipped_bin hp, map_append, sum_append]
    show _ = l.assignments + r.assignments
    by_cases hdecides : o.decides p.1 = true
    · rw [if_pos hdecides] at hrest ⊢
      cases Option.some.inj hrest
      simp only [map_cons, map_nil, sum_cons, sum_nil]
      omega
    · rw [if_neg hdecides] at hrest ⊢
      obtain ⟨q, hq, hmap⟩ := Option.bind_eq_some_iff.mp hrest
      obtain ⟨z, -, hvz⟩ := Option.map_eq_some_iff.mp hmap
      cases hvz
      have hr := ihr hq
      rw [length_append]
      omega
  | assign x e ih =>
    obtain ⟨r, hr, hmap⟩ := Option.map_eq_some_iff.mp heval
    cases hmap
    have he := ih hr
    show (r.2 ++ [(x, r.1)]).length + _ = e.assignments + 1
    rw [length_append, ← he]
    exact Nat.add_right_comm _ _ _
  | update o x e ih =>
    obtain ⟨r, hr, hmap⟩ := Option.bind_eq_some_iff.mp heval
    obtain ⟨z, -, hvz⟩ := Option.map_eq_some_iff.mp hmap
    cases hvz
    have he := ih hr
    show (r.2 ++ [(x, v)]).length + _ = e.assignments + 1
    rw [length_append, ← he]
    exact Nat.add_right_comm _ _ _

/-- The evaluator consumes the text, gives the value `v` and makes just the assignments `us`. -/
structure Agrees (text : Bytes) (env : Env) (v : Int) (us : List (Name × Int)) : Prop where
  consumed : ∀ c ∈ (arAssign (text.length + 1) ⟨text, env⟩).2.s, isGap c = true
  value : (arithEval text env).1 = v
  updates : updates (notedEval text env).2.notes = us.map fun u => (u.1.text, u.2)
  store : storeOf (arithEval text env).2 = after (storeOf env) us
  safe : Safe (notedEval text env).2.notes

/-- The evaluator agrees with C on a printed expression whose names are not cut, whose variables have slots and whose
skipped operands do not divide, just if the skipped operands do not assign. -/
theorem arithmetic_agrees_iff {text : Bytes} {us : List (Name × Int)} (htext : Printed e.tokens text) (hshort : e.Short)
    (hroom : Room env e.assigned) (heval : e.eval (storeOf env) = some (v, us))
    (hdivides : ∀ d ∈ e.skipped (storeOf env), d.divides = false) :
    Agrees text env v us ↔ ∀ d ∈ e.skipped (storeOf env), d.assignments = 0 := by
  obtain ⟨s, hs, hnoted⟩ := notedEval_printed e htext env
  constructor
  · intro h
    have hupdates := congrArg length h.updates
    have hlength := length_updates_eval heval
    rw [hnoted, length_map] at hupdates
    have hrun : (updates (e.run env).notes).length = us.length := hupdates
    rw [length_updates_run] at hrun
    have hsum : ((e.skipped (storeOf env)).map Expr.assignments).sum = 0 := by omega
    intro d hd
    exact List.sum_eq_zero_iff_forall_eq_nat.mp hsum _ (mem_map_of_mem hd)
  · intro h
    obtain ⟨hmatch, -⟩ := run_matches hshort (Finset.Subset.refl _) hroom heval fun d hd => ⟨h d hd, hdivides d hd⟩
    have herase := notedEval_erase text env
    have hassign : (_, _) = arAssign (text.length + 1) ⟨text, env⟩ := notedAssign_erases _ ⟨⟨text, env⟩, []⟩
    rw [← notedEval, hnoted] at hassign
    rw [hnoted] at herase
    refine ⟨?_, ?_, ?_, ?_, ?_⟩
    · rw [← hassign]
      exact hs
    · rw [← herase]
      exact hmatch.value
    · rw [hnoted]
      exact hmatch.updates
    · rw [← herase]
      exact hmatch.store
    · rw [hnoted]
      exact hmatch.safe

/-! ## Two expressions -/

/-- The tokens with one blank in front of each. -/
def spaced (ts : List Bytes) : Bytes := ts.flatMap fun t => space :: t

theorem printed_spaced (ts : List Bytes) : Printed ts (spaced ts) := by
  induction ts with
  | nil => exact .nil fun c hc => absurd hc not_mem_nil
  | cons t ts ih =>
    have hends : Ends (spaced ts) := by
      intro c hc
      cases ts with
      | nil => exact absurd hc (by simp [spaced])
      | cons u us =>
        rw [← Option.some.inj hc]
        decide
    exact .cons (w := [space]) (by decide +kernel) hends ih

def one : Literal := ⟨.decimal, ascii "1", by decide +kernel, fun _ => by decide +kernel, fun _ => by decide +kernel⟩

def zero : Literal := ⟨.octal, [], by decide +kernel, fun h => absurd rfl h, fun h => absurd h (by decide)⟩

def nameX : Name := ⟨ascii "x", by decide +kernel, by decide +kernel⟩

/-- `x = 1 || x`, where the variable is skipped. -/
theorem skipped_variable_agrees :
    Agrees (spaced (Expr.assign nameX (.bin .or (.lit one) (.var nameX))).tokens) (Env.init []) 1 [(nameX, 1)] := by
  refine (arithmetic_agrees_iff (e := .assign nameX (.bin .or (.lit one) (.var nameX))) (printed_spaced _)
    ⟨by decide, trivial, show (ascii "x").length ≤ 63 by decide⟩ (show _ ≤ _ from ?_) ?_ ?_).mpr ?_
  all_goals decide

/-- In `0 && ( x = 1 )` the assignment is made. -/
theorem skipped_assignment_made :
    (Expr.bin .and (.lit zero) (.assign nameX (.lit one))).eval (storeOf (Env.init [])) = some (0, []) ∧
    Printed (Expr.bin .and (.lit zero) (.assign nameX (.lit one))).tokens (ascii " 0 && ( x = 1 )") ∧
    arithEval (ascii " 0 && ( x = 1 )") (Env.init []) = (0, Env.init [ascii "x=1"]) := by
  refine ⟨by decide, ?_, by decide⟩
  exact printed_spaced _

end Lorica.Proof.Stsh

import Lorica.Proof.Stsh.Division
import Lorica.Proof.Stsh.Precedence

/-!
# The evaluator of stsh reads what is printed

`Takes m f item run ts` says that the function `f` of the evaluator takes the tokens `item` off a text
of at most `m` characters in which the tokens `ts` follow, and does what `run` says. The levels of the
evaluator are `stage`, up to the operators of a rank.

A level goes on with its loop after each operand, so for the left operand of an operator it is shown
where the loop stands behind it (`ContinuesAt`) and not what the level returns. In the end the whole
text is read (`notedEval_printed`).
-/

namespace Lorica.Proof.Stsh

open Lorica.Impl.Stsh List

variable {g : Np → Int × Np} {s t : Bytes} {env : Env} {notes : List Event} {item ts : List Bytes} {run : Env → Outcome}
  {n m j : Nat}

theorem ws_mk : Np.ws ⟨⟨s, env⟩, notes⟩ = ⟨⟨s.dropWhile isGap, env⟩, notes⟩ := rfl

/-! ## Literals and names -/

theorem takeWhile_digits {b : Nat} (hb : b ≤ 36) {ds : Bytes} (hds : ∀ c ∈ ds, digitOf c < b) (hs : Ends s) :
    ((ds ++ s).takeWhile fun c => digitOf c < b) = ds := by
  rw [takeWhile_append_of_pos (by simpa using hds)]
  cases s with
  | nil => simp
  | cons c s =>
    have hgap : isGap c = true := hs c rfl
    have hc : ¬digitOf c < b := fun h => by
      rw [not_isGap_of_digitOf (Nat.lt_of_lt_of_le h hb)] at hgap
      exact absurd hgap (by decide)
    rw [takeWhile_cons_of_neg (by simpa using hc), append_nil]

theorem strtolDigits_append {b : Nat} (hb : b ≤ 36) {ds : Bytes} (hds : ∀ c ∈ ds, digitOf c < b) (hs : Ends s) :
    strtolDigits b false (ds ++ s) =
      (min (2 ^ 63 - 1) ((ds.foldl (fun v c => b * v + digitOf c) 0 : Nat) : Int), s) := by
  unfold strtolDigits
  dsimp only
  rw [takeWhile_digits hb hds hs, drop_left]
  rfl

/-- How a byte can begin a primary. -/
theorem begins_apart : ∀ c : UInt8, (digitOf c < 10 → isDigit c = true) ∧
    (isDigit c = true → isSpace c = false ∧ c ≠ byte '-' ∧ c ≠ byte '+' ∧ c ≠ lparen ∧ isUnary c = false ∧
      beginsName c = false ∧ digitOf c < 10) ∧
    (beginsName c = true → c ≠ lparen ∧ isDigit c = false ∧ isUnary c = false) := by
  decide +kernel

variable {c : UInt8} {v : Int} {a : Np} {q : Bytes} {e : Expr}

theorem isDigit_of_digitOf (h : digitOf c < 10) : isDigit c = true := (begins_apart c).1 h

theorem digit_plain (h : isDigit c = true) :
    isSpace c = false ∧ c ≠ byte '-' ∧ c ≠ byte '+' ∧ c ≠ lparen ∧ isUnary c = false ∧ beginsName c = false ∧
      digitOf c < 10 := (begins_apart c).2.1 h

/-- `strtol` at a digit. -/
theorem strtol_digit (hc : isDigit c = true) (q : Bytes) :
    strtol (c :: q) = if c ≠ byte '0' then strtolDigits 10 false (c :: q)
      else if (q[0]? = some (byte 'x') ∨ q[0]? = some (byte 'X')) ∧ (q[1]?.any fun c => digitOf c < 16) then
        strtolDigits 16 false (q.drop 1) else strtolDigits 8 false (c :: q) := by
  obtain ⟨hspace, hminus, hplus, -, -, -, hdigit⟩ := digit_plain hc
  unfold strtol
  simp [hspace, hminus, hplus, hdigit]

theorem strtol_literal (l : Literal) (hs : Ends s) : strtol (l.text ++ s) = (min (2 ^ 63 - 1) (l.value : Int), s) := by
  have hdigits := l.digits_lt
  unfold Literal.value Literal.text
  cases hb : l.base with
  | decimal =>
    rw [hb] at hdigits
    have hleading := l.leading hb
    have hne := l.nonempty (by simp [hb])
    cases hds : l.digits with
    | nil => exact absurd hds hne
    | cons c q =>
      rw [hds] at hdigits hleading
      have hc : isDigit c = true := isDigit_of_digitOf (hdigits c mem_cons_self)
      rw [cons_append, strtol_digit hc, if_pos (by simpa using hleading)]
      exact strtolDigits_append (by decide) hdigits hs
  | octal =>
    rw [hb] at hdigits
    -- what follows the zero is a digit or a blank
    have hx : ∀ x, 8 ≤ digitOf x → isGap x = false → (l.digits ++ s)[0]? ≠ some x := by
      intro x hdigit hgap h
      cases hds : l.digits with
      | nil =>
        rw [hds, ← head?_eq_getElem?] at h
        rw [hs x h] at hgap
        exact absurd hgap (by decide)
      | cons c q =>
        rw [hds] at h hdigits
        rw [← Option.some.inj h] at hdigit
        exact absurd (hdigits c mem_cons_self) (Nat.not_lt.mpr hdigit)
    rw [cons_append, strtol_digit (by decide), if_neg (by simp),
      if_neg fun h => h.1.elim (hx _ (by decide) (by decide)) (hx _ (by decide) (by decide)), ← cons_append]
    exact strtolDigits_append (by decide) (forall_mem_cons.mpr ⟨by decide, hdigits⟩) hs
  | hexadecimal =>
    rw [hb] at hdigits
    have hne := l.nonempty (by simp [hb])
    have hfirst : ((byte 'x' :: (l.digits ++ s))[1]?.any fun c => digitOf c < 16) = true := by
      cases hds : l.digits with
      | nil => exact absurd hds hne
      | cons c q =>
        rw [hds] at hdigits
        exact decide_eq_true (hdigits c mem_cons_self)
    rw [cons_append, strtol_digit (by decide), if_neg (by simp), if_pos ⟨.inl rfl, hfirst⟩]
    exact strtolDigits_append (by decide) hdigits hs

theorem takeWhile_name (x : Name) (hs : Ends s) : arName (x.text ++ s) = (x.text.take 63, s) := by
  have hstop : ∀ c ∈ s.head?, isNameChar c = false := by
    intro c hc
    by_contra h
    have hgap := hs c hc
    rw [not_isGap_of_isNameChar (by simpa using h)] at hgap
    exact absurd hgap (by decide)
  unfold arName
  rw [takeWhile_append_of_pos x.isName.2, dropWhile_append_of_pos x.isName.2]
  cases s with
  | nil => simp
  | cons c s =>
    have hc : ¬isNameChar c = true := by simp [hstop c rfl]
    rw [takeWhile_cons_of_neg hc, dropWhile_cons_of_neg hc, append_nil]

/-! ## Reading -/

def Takes (m : Nat) (f : Np → Int × Np) (item : List Bytes) (run : Env → Outcome) (ts : List Bytes) : Prop :=
  ∀ s env notes, Printed (item ++ ts) s → s.length ≤ m → ∃ s', Printed ts s' ∧ s'.length ≤ s.length ∧
    f ⟨⟨s, env⟩, notes⟩ = ((run env).value, ⟨⟨s', (run env).env⟩, notes ++ (run env).notes⟩)

/-- The evaluator up to the operators of rank `j`. -/
def stage (n m j : Nat) : Np → Int × Np := climb (notedUn (notedPrim (notedAssign n)) m) (levels.take j)

/-- The operators of a rank. -/
def opsAt (j : Nat) : List Op := levels.getD j []

theorem stage_succ (hj : j < 6) : stage n m (j + 1) = notedLevel (opsAt j) (stage n m j) := by
  have hlt : j < levels.length := hj
  rw [stage, climb, take_succ_eq_append_getElem hlt, foldl_append, opsAt, getD_eq_getElem _ _ hlt]
  rfl

/-- No operator of a rank below `j` follows. -/
def Follow (j : Nat) (ts : List Bytes) : Prop := ∀ t ∈ ts.head?, IsToken t ∧ ∀ i < j, findOp (opsAt i) t = none

theorem Follow.mono {i : Nat} (h : Follow j ts) (hi : i ≤ j) : Follow i ts :=
  fun t ht => ⟨(h t ht).1, fun k hk => (h t ht).2 k (Nat.lt_of_lt_of_le hk hi)⟩

/-- The tables have no gaps in their operators, and neither an empty one nor a parenthesis. -/
theorem opsAt_apart : ∀ j < 6, (∀ o ∈ opsAt j, ∀ c ∈ o.text, isGap c = false) ∧ (findOp (opsAt j) []).isNone = true ∧
    (findOp (opsAt j) [rparen]).isNone = true := by
  decide +kernel

theorem text_opsAt (hj : j < 6) : ∀ o ∈ opsAt j, ∀ c ∈ o.text, isGap c = false := (opsAt_apart j hj).1

/-- The binary operators are in no table of a lower rank and in no compound assignment. -/
theorem binary_apart : ∀ o : Binary, (∀ i < o.rank, (findOp (opsAt i) o.op.text).isNone = true) ∧
    (o.op.text.head? = some equals → o = .eq) ∧ (findOp compounds o.op.text).isSome = false := by
  decide

theorem compounds_apart : (∀ o : Compound, o.op.text.head? ≠ some equals) ∧
    (findOp compounds [rparen]).isSome = false := by
  decide

theorem findOp_nil (hj : j < 6) : findOp (opsAt j) [] = none := by
  have h : ∀ j < 6, (findOp (opsAt j) []).isNone = true := fun j hj => (opsAt_apart j hj).2.1
  exact Option.isNone_iff_eq_none.mp (h j hj)

/-- An operator is found at its own rank, and at no other. -/
theorem findOp_binary (o : Binary) : findOp (opsAt o.rank) o.op.text = some (o.op, []) := by
  cases o <;> rfl

theorem follow_binary (o : Binary) (h : j ≤ o.rank) : Follow j (o.op.text :: ts) := by
  have hnone : ∀ o : Binary, ∀ i < o.rank, (findOp (opsAt i) o.op.text).isNone = true := fun o => (binary_apart o).1
  intro t ht
  rw [← Option.some.inj ht]
  exact ⟨isToken_binary o, fun i hi => Option.isNone_iff_eq_none.mp (hnone o i (Nat.lt_of_lt_of_le hi h))⟩

theorem rank_lt (o : Binary) : o.rank < 6 := by
  cases o <;> decide

/-- Nothing follows but a parenthesis. -/
def Closes (ts : List Bytes) : Prop := ∀ t ∈ ts.head?, t = [rparen]

theorem Closes.follow (h : Closes ts) (hj : j ≤ 6) : Follow j ts := by
  have hnone : ∀ i < 6, (findOp (opsAt i) [rparen]).isNone = true := fun i hi => (opsAt_apart i hi).2.2
  intro t ht
  rw [h t ht]
  exact ⟨isToken_rparen, fun i hi => Option.isNone_iff_eq_none.mp (hnone i (Nat.lt_of_lt_of_le hi hj))⟩

/-- Where no operator of the rank follows, the loop ends. -/
theorem findOp_follow (hj : j < 6) (h : Follow (j + 1) ts) (hs : Printed ts s) :
    findOp (opsAt j) (s.dropWhile isGap) = none := by
  cases ts with
  | nil => rw [hs.end, findOp_nil hj]
  | cons t ts =>
    obtain ⟨htoken, hnone⟩ := h t rfl
    obtain ⟨s', hws, hends, -, -⟩ := hs.head htoken
    rw [hws, findOp_boundary (text_opsAt hj) hends, hnone j (Nat.lt_succ_self j)]
    rfl

theorem notedChain_stop {table : List Op} {L : Nat} (h : findOp table a.ws.ap.s = none) :
    notedChain table g L v a = (v, a.ws) := by
  cases L with
  | zero => rw [notedChain, h]; rfl
  | succ L => rw [notedChain, h]

def TakesAt (n m j : Nat) (item : List Bytes) (run : Env → Outcome) : Prop :=
  ∀ ts, Follow j ts → Takes m (stage n m j) item run ts

/-- Behind the item, the level of rank `j` is in its loop. -/
def ContinuesAt (n m j : Nat) (item : List Bytes) (run : Env → Outcome) : Prop :=
  ∀ ts, Follow j ts → ∀ s env notes, Printed (item ++ ts) s → s.length ≤ m → ∃ s' L, Printed ts s' ∧
    s'.length ≤ s.length ∧ s'.length ≤ L ∧ stage n m (j + 1) ⟨⟨s, env⟩, notes⟩ =
      notedChain (opsAt j) (stage n m j) L (run env).value ⟨⟨s', (run env).env⟩, notes ++ (run env).notes⟩

theorem TakesAt.continuesAt (hj : j < 6) (h : TakesAt n m j item run) : ContinuesAt n m j item run := by
  intro ts hts s env notes hs hlen
  obtain ⟨s', hs', hle, heq⟩ := h ts hts s env notes hs hlen
  refine ⟨s', s'.length, hs', hle, Nat.le_refl _, ?_⟩
  rw [stage_succ hj, notedLevel, heq]

theorem ContinuesAt.takesAt (hj : j < 6) (h : ContinuesAt n m j item run) : TakesAt n m (j + 1) item run := by
  intro ts hts s env notes hs hlen
  obtain ⟨s', L, hs', hle, -, heq⟩ := h ts (hts.mono (Nat.le_succ j)) s env notes hs hlen
  refine ⟨s'.dropWhile isGap, hs'.ws fun t ht => (hts t ht).1, ((dropWhile_suffix _).length_le).trans hle, ?_⟩
  rw [heq, notedChain_stop (findOp_follow hj hts hs')]
  rfl

theorem TakesAt.mono {k : Nat} (h : TakesAt n m j item run) (hjk : j ≤ k) (hk : k ≤ 6) : TakesAt n m k item run := by
  induction hjk with
  | refl => exact h
  | step _ ih => exact ((ih (Nat.le_of_succ_le hk)).continuesAt hk).takesAt hk

/-! ## Operands -/

theorem notedUn_plain {prim : Np → Int × Np} (h : a.ws.ap.s.head?.any isUnary = false) (k : Nat) :
    notedUn prim k a = prim a.ws := by
  cases k with
  | zero => rw [notedUn, h]; rfl
  | succ k =>
    rw [notedUn]
    cases hs : a.ws.ap.s with
    | nil => rfl
    | cons c s =>
      rw [hs] at h
      dsimp only
      rw [if_neg (by simpa using h)]

theorem ws_ws (a : Np) : a.ws.ws = a.ws := by
  have h : a.ws.ap.s.dropWhile isGap = a.ws.ap.s := dropWhile_idempotent isGap a.ap.s
  show { a.ws with ap := { a.ws.ap with s := a.ws.ap.s.dropWhile isGap } } = a.ws
  rw [h]

theorem stage_zero (hs : a.ws.ap.s = c :: q) (hc : isUnary c = false) :
    stage n m 0 a = notedPrim (notedAssign n) a.ws := by
  rw [stage, take_zero, climb, foldl_nil, notedUn_plain (by rw [hs]; exact hc)]

theorem notedPrim_digit (hs : a.ws.ap.s = c :: q) (hc : isDigit c = true) :
    notedPrim g a = ((strtol (c :: q)).1, a.ws.goto (strtol (c :: q)).2) := by
  obtain ⟨-, -, -, hparen, -⟩ := digit_plain hc
  rw [notedPrim]
  rw [hs]
  dsimp only
  rw [if_neg hparen, if_pos hc]

theorem begins_plain (h : beginsName c = true) : c ≠ lparen ∧ isDigit c = false ∧ isUnary c = false :=
  (begins_apart c).2.2 h

theorem notedPrim_name (hs : a.ws.ap.s = c :: q) (hc : beginsName c = true) :
    notedPrim g a = (arVar (arName (c :: q)).1 a.ap.env, a.ws.goto (arName (c :: q)).2) := by
  obtain ⟨hparen, hdigit, -⟩ := begins_plain hc
  rw [notedPrim]
  rw [hs]
  dsimp only
  rw [if_neg hparen, if_neg (by simp [hdigit]), if_pos hc]
  rfl

theorem notedPrim_paren {b : Np} {q' : Bytes} (hs : a.ws.ap.s = lparen :: q) (hg : g (a.ws.goto q) = (v, b))
    (hs' : b.ws.ap.s = rparen :: q') : notedPrim g a = (v, b.ws.goto q') := by
  rw [notedPrim]
  rw [hs]
  dsimp only
  rw [hg]
  rw [hs', head?_cons]
  rfl

theorem literal_digit (l : Literal) : ∃ c q, l.text = c :: q ∧ isDigit c = true := by
  have hdigits := l.digits_lt
  have hnonempty := l.nonempty
  unfold Literal.text
  cases hb : l.base with
  | decimal =>
    rw [hb] at hdigits hnonempty
    cases hds : l.digits with
    | nil => exact absurd hds (hnonempty (by decide))
    | cons c q =>
      rw [hds] at hdigits
      exact ⟨c, q, rfl, isDigit_of_digitOf (hdigits c mem_cons_self)⟩
  | octal => exact ⟨_, _, rfl, by decide⟩
  | hexadecimal => exact ⟨_, _, rfl, by decide⟩

/-- A number is an operand. -/
theorem takesAt_lit (l : Literal) : TakesAt n m 0 (Expr.lit l).tokens (Expr.lit l).run := by
  intro ts _ s env notes hs _
  obtain ⟨s', hws, hends, hs', hle⟩ := hs.head (isToken_literal l)
  obtain ⟨c, q, htext, hdigit⟩ := literal_digit l
  obtain ⟨-, -, -, -, hunary, -⟩ := digit_plain hdigit
  have hfirst : (Np.ws ⟨⟨s, env⟩, notes⟩).ap.s = c :: (q ++ s') := by rw [ws_mk, hws, htext]; rfl
  refine ⟨s', hs', by omega, ?_⟩
  rw [stage_zero hfirst hunary, notedPrim_digit (by rw [ws_ws, hfirst]) hdigit,
    ← cons_append, ← htext, strtol_literal l hends, Expr.run, append_nil]
  rfl

theorem name_begins (x : Name) : ∃ c q, x.text = c :: q ∧ beginsName c = true := by
  have hhead := x.isName.1
  cases hx : x.text with
  | nil => rw [hx] at hhead; exact absurd hhead (by decide)
  | cons c q => rw [hx] at hhead; exact ⟨c, q, rfl, hhead⟩

/-- A name is an operand. -/
theorem takesAt_var (x : Name) : TakesAt n m 0 (Expr.var x).tokens (Expr.var x).run := by
  intro ts _ s env notes hs _
  obtain ⟨s', hws, hends, hs', hle⟩ := hs.head (isToken_name x)
  obtain ⟨c, q, htext, hbegins⟩ := name_begins x
  obtain ⟨-, -, hunary⟩ := begins_plain hbegins
  have hfirst : (Np.ws ⟨⟨s, env⟩, notes⟩).ap.s = c :: (q ++ s') := by rw [ws_mk, hws, htext]; rfl
  refine ⟨s', hs', by omega, ?_⟩
  rw [stage_zero hfirst hunary, notedPrim_name (by rw [ws_ws, hfirst]) hbegins,
    ← cons_append, ← htext, takeWhile_name x hends, Expr.run, append_nil]
  rfl

/-- An expression in parentheses is an operand. -/
theorem takesAt_paren (hm : m ≤ n) (h : ∀ n ts, Closes ts → Takes n (notedAssign (n + 1)) item run ts) :
    TakesAt n m 0 ([lparen] :: (item ++ [[rparen]])) run := by
  intro ts _ s env notes hs hlen
  rw [cons_append, append_assoc] at hs
  obtain ⟨s1, hws, -, hs1, hle1⟩ := hs.head isToken_lparen
  have hfirst : (Np.ws ⟨⟨s, env⟩, notes⟩).ap.s = lparen :: s1 := by rw [ws_mk, hws]; rfl
  obtain ⟨k, rfl⟩ : ∃ k, n = k + 1 := ⟨n - 1, by rw [length_singleton] at hle1; omega⟩
  obtain ⟨s2, hs2, hle2, heq⟩ := h k ([[rparen]] ++ ts) (fun t ht => (Option.some.inj ht).symm) s1 env notes hs1
    (by rw [length_singleton] at hle1; omega)
  obtain ⟨s3, hws3, -, hs3, hle3⟩ := hs2.head isToken_rparen
  refine ⟨s3, hs3, by omega, ?_⟩
  have hprim : notedPrim (notedAssign (k + 1)) (Np.ws ⟨⟨s, env⟩, notes⟩) = ((run env).value,
      Np.goto s3 (Np.ws ⟨⟨s2, (run env).env⟩, notes ++ (run env).notes⟩)) :=
    notedPrim_paren (q := s1) (by rw [ws_ws, hfirst]) (by rw [ws_ws]; exact heq) (by rw [ws_mk, hws3]; rfl)
  rw [stage_zero hfirst (by decide), hprim]
  rfl

/-- An operand with a unary operator in front is an operand. -/
theorem takesAt_un (o : Unary) (h : ∀ m ≤ n, TakesAt n m 0 item run) (hm : m ≤ n) :
    TakesAt n m 0 ([o.char] :: item) fun env => { run env with value := unary o.char (run env).value } := by
  intro ts hts s env notes hs hlen
  obtain ⟨s1, hws, -, hs1, hle1⟩ := hs.head (isToken_unary o)
  rw [length_singleton] at hle1
  have hfirst : (Np.ws ⟨⟨s, env⟩, notes⟩).ap.s = o.char :: s1 := by rw [ws_mk, hws]; rfl
  obtain ⟨k, rfl⟩ : ∃ k, m = k + 1 := ⟨m - 1, by omega⟩
  obtain ⟨s2, hs2, hle2, heq⟩ := h k (by omega) ts hts s1 env notes hs1 (by omega)
  refine ⟨s2, hs2, by omega, ?_⟩
  have hunary : isUnary o.char = true := by cases o <;> decide
  rw [stage, take_zero, climb, foldl_nil] at heq ⊢
  rw [notedUn]
  rw [hfirst]
  dsimp only
  rw [if_pos hunary]
  show (unary o.char (notedUn _ k ⟨⟨s1, env⟩, notes⟩).1, (notedUn _ k ⟨⟨s1, env⟩, notes⟩).2) = _
  rw [heq]

/-! ## Operators -/

/-- The loop of a level takes an operator and its right operand. -/
theorem continuesAt_bin (o : Binary) {litem ritem : List Bytes} {lrun rrun : Env → Outcome}
    (hl : ContinuesAt n m o.rank litem lrun) (hr : TakesAt n m o.rank ritem rrun) :
    ContinuesAt n m o.rank (litem ++ o.op.text :: ritem) fun env =>
      ⟨o.op.apply (lrun env).value (rrun (lrun env).env).value, (rrun (lrun env).env).env, (lrun env).notes ++
        (rrun (lrun env).env).notes ++ o.op.notes (lrun env).value (rrun (lrun env).env).value⟩ := by
  intro ts hts s env notes hs hlen
  rw [append_assoc] at hs
  obtain ⟨s1, L, hs1, hle1, hL, heq⟩ := hl _ (follow_binary o (Nat.le_refl _)) s env notes hs hlen
  obtain ⟨s2, hws, hends, hs2, hle2⟩ := hs1.head (isToken_binary o)
  have hpos := length_pos_of_ne_nil (isToken_binary o).1
  obtain ⟨L, rfl⟩ : ∃ k, L = k + 1 := ⟨L - 1, by omega⟩
  have hfound : findOp (opsAt o.rank) (s1.dropWhile isGap) = some (o.op, s2) := by
    rw [hws, findOp_boundary (text_opsAt (rank_lt o)) hends, findOp_binary]
    rfl
  obtain ⟨s3, hs3, hle3, heq3⟩ := hr ts hts s2 (lrun env).env (notes ++ (lrun env).notes) hs2 (by omega)
  refine ⟨s3, L, hs3, by omega, by omega, ?_⟩
  rw [heq, notedChain, ws_mk]
  rw [hfound]
  dsimp only [Np.goto]
  rw [heq3]
  simp only [Np.note, append_assoc]

/-! ## Assignments -/

/-- What `ar_assign` looks at behind a name. -/
def Assigning (r : Bytes) : Prop := (r.head? = some equals ∧ r[1]? ≠ some equals) ∨ (findOp compounds r).isSome = true

theorem gap_eq : (fun c : UInt8 => decide (c = space) || decide (c = tab)) = isGap := rfl

theorem notedAssign_plain
    (h : a.ws.ap.s.head?.any beginsName = true → ¬Assigning ((arName a.ws.ap.s).2.dropWhile isGap)) :
    notedAssign (n + 1) a = stage n a.ws.ap.s.length 6 a.ws := by
  rw [notedAssign, gap_eq]
  split
  · rename_i hname
    obtain ⟨hset, hcompound⟩ := not_or.mp (h hname)
    rw [if_neg hset, Option.not_isSome_iff_eq_none.mp hcompound]
    rfl
  · rfl

theorem notedAssign_set {w : Np} (hname : a.ws.ap.s.head?.any beginsName = true)
    (hr : (arName a.ws.ap.s).2.dropWhile isGap = equals :: q) (hq : q.head? ≠ some equals)
    (hw : notedAssign n (a.ws.goto q) = (v, w)) : notedAssign (n + 1) a = notedSet (arName a.ws.ap.s).1 v w := by
  have hset : (equals :: q).head? = some equals ∧ (equals :: q)[1]? ≠ some equals :=
    ⟨rfl, by rwa [getElem?_cons_succ, ← head?_eq_getElem?]⟩
  rw [notedAssign, gap_eq]
  rw [if_pos hname, hr, if_pos hset, drop_one, tail_cons, hw]

theorem notedAssign_update {w : Np} {r : Bytes} {o : Op × Bytes} (hname : a.ws.ap.s.head?.any beginsName = true)
    (hr : (arName a.ws.ap.s).2.dropWhile isGap = r) (hset : r.head? ≠ some equals) (ho : findOp compounds r = some o)
    (hw : notedAssign n (a.ws.goto o.2) = (v, w)) : notedAssign (n + 1) a =
      notedSet (arName a.ws.ap.s).1 (o.1.apply (arVar (arName a.ws.ap.s).1 w.ap.env) v)
        (w.note (o.1.notes (arVar (arName a.ws.ap.s).1 w.ap.env) v)) := by
  rw [notedAssign, gap_eq]
  rw [if_pos hname, hr, if_neg fun h => hset h.1, ho]
  dsimp only
  rw [hw]

theorem Ends.head_ne (hs : Ends s) (hc : isGap c = false) : s.head? ≠ some c := by
  intro h
  rw [hs c h] at hc
  exact absurd hc (by decide)

theorem takes_assign (x : Name) (h : ∀ n ts, Closes ts → Takes n (notedAssign (n + 1)) item run ts) (hts : Closes ts) :
    Takes n (notedAssign (n + 1)) (x.text :: [equals] :: item)
      (fun env => (run env).assign x (run env).value []) ts := by
  intro s env notes hs hlen
  obtain ⟨s1, hws1, hends1, hs1, hle1⟩ := hs.head (isToken_name x)
  obtain ⟨s2, hws2, hends2, hs2, hle2⟩ := hs1.head isToken_equals
  rw [length_singleton] at hle2
  obtain ⟨n, rfl⟩ : ∃ k, n = k + 1 := ⟨n - 1, by omega⟩
  obtain ⟨s3, hs3, hle3, heq⟩ := h n ts hts s2 env notes hs2 (by omega)
  obtain ⟨c, q, htext, hbegins⟩ := name_begins x
  have hname : arName (Np.ws ⟨⟨s, env⟩, notes⟩).ap.s =
      (x.text.take 63, s1) := by rw [ws_mk, hws1, takeWhile_name x hends1]
  refine ⟨s3, hs3, by omega, ?_⟩
  rw [notedAssign_set (by rw [ws_mk, hws1, htext]; exact hbegins) (by rw [hname, hws2]; rfl)
    (hends2.head_ne (by decide)) heq, hname]
  simp only [notedSet, setVar, Np.note, Outcome.assign, append_assoc, nil_append]

theorem takes_update (o : Compound) (x : Name) (h : ∀ n ts, Closes ts → Takes n (notedAssign (n + 1)) item run ts)
    (hts : Closes ts) : Takes n (notedAssign (n + 1)) (x.text :: o.op.text :: item) (fun env =>
      (run env).assign x (o.op.apply (arVar (x.text.take 63) (run env).env) (run env).value)
        (o.op.notes (arVar (x.text.take 63) (run env).env) (run env).value)) ts := by
  intro s env notes hs hlen
  obtain ⟨s1, hws1, hends1, hs1, hle1⟩ := hs.head (isToken_name x)
  obtain ⟨s2, hws2, hends2, hs2, hle2⟩ := hs1.head (isToken_compound o)
  have hpos := length_pos_of_ne_nil (isToken_compound o).1
  obtain ⟨n, rfl⟩ : ∃ k, n = k + 1 := ⟨n - 1, by omega⟩
  obtain ⟨s3, hs3, hle3, heq⟩ := h n ts hts s2 env notes hs2 (by omega)
  obtain ⟨c, q, htext, hbegins⟩ := name_begins x
  have hname : arName (Np.ws ⟨⟨s, env⟩, notes⟩).ap.s =
      (x.text.take 63, s1) := by rw [ws_mk, hws1, takeWhile_name x hends1]
  have hne : (o.op.text ++ s2).head? ≠ some equals := by
    have h := compounds_apart.1
    rw [head?_append_of_ne_nil _ (isToken_compound o).1]
    exact h o
  have hfound : findOp compounds (o.op.text ++ s2) = some (o.op, s2) := by
    have hown : findOp compounds o.op.text = some (o.op, []) := by cases o <;> rfl
    rw [findOp_boundary text_compounds hends2, hown]
    rfl
  refine ⟨s3, hs3, by omega, ?_⟩
  rw [notedAssign_update (by rw [ws_mk, hws1, htext]; exact hbegins) (by rw [hname, hws2]) hne hfound heq, hname]
  simp only [notedSet, setVar, Np.note, Outcome.assign, append_assoc]

/-! ## Expressions -/

/-- Behind the first token, if that is a name, there is no assignment. -/
def Plain (ts : List Bytes) : Prop :=
  ∀ t r, ts = t :: r → t.head?.any beginsName = true →
    IsName t ∧ ∀ u ∈ r.head?, IsToken u ∧ ∀ s, Ends s → ¬Assigning (u ++ s)

theorem not_assigning_rparen (hs : Ends s) : ¬Assigning ([rparen] ++ s) := by
  rintro (h | h)
  · exact absurd (Option.some.inj h.1) (by decide)
  · rw [findOp_boundary text_compounds hs] at h
    have hnone := compounds_apart.2
    simp [hnone] at h

theorem not_assigning_binary (o : Binary) (hs : Ends s) : ¬Assigning (o.op.text ++ s) := by
  rintro (h | h)
  · -- only `==` begins with an equals sign, and has a second one
    have hhead := fun o => (binary_apart o).2.1
    rw [head?_append_of_ne_nil _ (isToken_binary o).1] at h
    obtain rfl := hhead o h.1
    exact h.2 rfl
  · rw [findOp_boundary text_compounds hs] at h
    have hnone : ∀ o : Binary, (findOp compounds o.op.text).isSome = false := fun o => (binary_apart o).2.2
    simp [hnone o] at h

theorem plain_tokens (e : Expr)
    (he : e.rank ≤ 6) (hts : ∀ u ∈ ts.head?, IsToken u ∧ ∀ s, Ends s → ¬Assigning (u ++ s)) :
    Plain (e.tokens ++ ts) := by
  induction e generalizing ts with
  | lit l =>
    intro t r h hbegins
    obtain ⟨c, q, htext, hdigit⟩ := literal_digit l
    obtain ⟨-, -, -, -, -, hno, -⟩ := digit_plain hdigit
    obtain ⟨rfl, -⟩ := cons.inj h
    rw [htext] at hbegins
    exact absurd hbegins (by simp [hno])
  | var x =>
    intro t r h _
    obtain ⟨rfl, rfl⟩ := cons.inj h
    exact ⟨x.isName, hts⟩
  | un o e _ =>
    intro t r h hbegins
    obtain ⟨rfl, -⟩ := cons.inj h
    exact absurd hbegins (by cases o <;> decide)
  | bin o l r ihl _ =>
    rw [Expr.tokens, Expr.wrap, append_assoc]
    split
    · intro t r h hbegins
      obtain ⟨rfl, -⟩ := cons.inj h
      exact absurd hbegins (by decide)
    · rename_i hrank
      have hlt := rank_lt o
      refine ihl (by simp at hrank; omega) fun u hu => ?_
      rw [← Option.some.inj hu]
      exact ⟨isToken_binary o, fun s hs => not_assigning_binary o hs⟩
  | assign x e _ => exact absurd he (by simp [Expr.rank])
  | update o x e _ => exact absurd he (by simp [Expr.rank])

theorem tokens_ne_nil (e : Expr) : e.tokens ≠ [] := by
  cases e <;> simp [Expr.tokens]

/-- The text of a plain expression does not look like an assignment. -/
theorem Plain.not_assigning {t : Bytes} (h : Plain (t :: ts)) (ht : IsToken t) (hs : Printed (t :: ts) s)
    (hname : (s.dropWhile isGap).head?.any beginsName = true) :
    ¬Assigning ((arName (s.dropWhile isGap)).2.dropWhile isGap) := by
  obtain ⟨s1, hws, hends, hs1, -⟩ := hs.head ht
  rw [hws, head?_append_of_ne_nil _ ht.1] at hname
  obtain ⟨hisName, hnext⟩ := h t ts rfl hname
  have harName : arName (t ++ s1) = (t.take 63, s1) := takeWhile_name ⟨t, hisName⟩ hends
  rw [hws, harName]
  cases ts with
  | nil =>
    rw [hs1.end]
    rintro (h | h)
    · exact absurd h.1 (by simp)
    · exact absurd h (by decide)
  | cons u ts =>
    obtain ⟨hu, hno⟩ := hnext u rfl
    obtain ⟨s2, hws2, hends2, -, -⟩ := hs1.head hu
    rw [hws2]
    exact hno s2 hends2

/-- An expression that is not an assignment is read by the levels. -/
theorem takes_plain (e : Expr) (he : e.rank ≤ 6) (h : ∀ n m, m ≤ n → TakesAt n m 6 e.tokens e.run) (hts : Closes ts) :
    Takes n (notedAssign (n + 1)) e.tokens e.run ts := by
  intro s env notes hs hlen
  have hplain : Plain (e.tokens ++ ts) := plain_tokens e he fun u hu => by
    rw [hts u hu]
    exact ⟨isToken_rparen, fun s hs => not_assigning_rparen hs⟩
  obtain ⟨t, r, htokens⟩ := exists_cons_of_ne_nil (tokens_ne_nil e)
  have htoken : IsToken t := isToken_tokens e t (by rw [htokens]; exact mem_cons_self)
  have hle : (s.dropWhile isGap).length ≤ s.length := (dropWhile_suffix _).length_le
  obtain ⟨s', hs', hle', heq⟩ := h n _ (hle.trans hlen) ts (hts.follow (Nat.le_refl 6)) (s.dropWhile isGap) env notes
    (hs.ws fun u hu => by
      rw [htokens] at hu
      rw [← Option.some.inj hu]
      exact htoken) (Nat.le_refl _)
  refine ⟨s', hs', hle'.trans hle, ?_⟩
  rw [htokens] at hplain hs
  rw [notedAssign_plain (a := ⟨⟨s, env⟩, notes⟩) fun hname => hplain.not_assigning htoken hs hname]
  exact heq

/-- An expression is read as a whole, up to its rank and as the left operand of an operator. -/
structure Understood (e : Expr) : Prop where
  whole : ∀ n ts, Closes ts → Takes n (notedAssign (n + 1)) e.tokens e.run ts
  read : ∀ n m j, m ≤ n → e.rank ≤ j → j ≤ 6 → TakesAt n m j e.tokens e.run
  left : ∀ n m j, m ≤ n → e.rank ≤ j + 1 → j < 6 → ContinuesAt n m j e.tokens e.run

theorem Understood.of_zero (h : ∀ n m, m ≤ n → TakesAt n m 0 e.tokens e.run) (he : e.rank = 0) : Understood e where
  whole n ts hts := takes_plain e (by omega) (fun n m hm => (h n m hm).mono (Nat.zero_le _) (Nat.le_refl _)) hts
  read n m j hm _ hj := (h n m hm).mono (Nat.zero_le _) hj
  left n m j hm _ hj := ((h n m hm).mono (Nat.zero_le _) (Nat.le_of_lt hj)).continuesAt hj

theorem Understood.of_succ {k : Nat} (hk : k < 6) (he : e.rank = k + 1)
    (h : ∀ n m, m ≤ n → ContinuesAt n m k e.tokens e.run) : Understood e := by
  have hread : ∀ n m j, m ≤ n → e.rank ≤ j → j ≤ 6 → TakesAt n m j e.tokens e.run := fun n m j hm hj hj6 =>
    ((h n m hm).takesAt hk).mono (by omega) hj6
  refine ⟨fun n ts hts => takes_plain e (by omega)
    (fun n m hm => hread n m 6 hm (by omega) (Nat.le_refl _)) hts, hread, ?_⟩
  intro n m j hm hj hj6
  obtain hlt | rfl := Nat.lt_or_eq_of_le (show k ≤ j by omega)
  · exact (hread n m j hm (by omega) (Nat.le_of_lt hj6)).continuesAt hj6
  · exact h n m hm

theorem Understood.wrap (h : Understood e) {needed : Bool} (hneeded : needed = false → e.rank ≤ j)
    (hj : j ≤ 6) (hm : m ≤ n) : TakesAt n m j (Expr.wrap needed e.tokens) e.run := by
  cases needed with
  | true => exact (takesAt_paren hm h.whole).mono (Nat.zero_le _) hj
  | false => exact h.read n m j hm (hneeded rfl) hj

theorem Understood.wrapLeft (h : Understood e) {needed : Bool} (hneeded : needed = false → e.rank ≤ j + 1)
    (hj : j < 6) (hm : m ≤ n) : ContinuesAt n m j (Expr.wrap needed e.tokens) e.run := by
  cases needed with
  | true => exact ((takesAt_paren hm h.whole).mono (Nat.zero_le _) (Nat.le_of_lt hj)).continuesAt hj
  | false => exact h.left n m j hm (hneeded rfl) hj

theorem understood (e : Expr) : Understood e := by
  induction e with
  | lit l => exact .of_zero (fun n m _ => takesAt_lit l) rfl
  | var x => exact .of_zero (fun n m _ => takesAt_var x) rfl
  | un o e ih =>
    refine .of_zero (fun n m hm => takesAt_un o (fun k hk => ih.wrap (fun h => ?_) (Nat.zero_le _) hk) hm) rfl
    simpa using h
  | bin o l r ihl ihr =>
    refine .of_succ (rank_lt o) rfl fun n m hm => continuesAt_bin o (ihl.wrapLeft (fun h => ?_) (rank_lt o) hm)
      (ihr.wrap (fun h => ?_) (Nat.le_of_lt (rank_lt o)) hm)
    · simpa using h
    · simpa using h
  | assign x e ih =>
    refine ⟨fun n ts hts => takes_assign x ih.whole hts, fun n m j _ he hj => ?_, fun n m j _ he hj => ?_⟩
    · exact absurd he (by simp [Expr.rank]; omega)
    · exact absurd he (by simp [Expr.rank]; omega)
  | update o x e ih =>
    refine ⟨fun n ts hts => takes_update o x ih.whole hts, fun n m j _ he hj => ?_, fun n m j _ he hj => ?_⟩
    · exact absurd he (by simp [Expr.rank]; omega)
    · exact absurd he (by simp [Expr.rank]; omega)

/-- The evaluator reads a printed expression to its end. -/
theorem notedEval_printed (e : Expr) {text : Bytes} (h : Printed e.tokens text) (env : Env) :
    ∃ s, (∀ c ∈ s, isGap c = true) ∧
      notedEval text env = ((e.run env).value, ⟨⟨s, (e.run env).env⟩, (e.run env).notes⟩) := by
  obtain ⟨s, hs, -, heq⟩ := (understood e).whole text.length [] (fun t ht => absurd ht (by simp)) text env []
    (by rwa [append_nil]) (Nat.le_refl _)
  cases hs with
  | nil hgap => exact ⟨s, hgap, heq⟩

end Lorica.Proof.Stsh

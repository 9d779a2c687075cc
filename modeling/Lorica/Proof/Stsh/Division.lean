import Lorica.Proof.Stsh.Tree

/-!
# The divisions of the arithmetic of stsh

Each function of the evaluator gives a `long`, leaves no more text than there was, and notes only
divisions of `long`s by one that is not zero (`Sound`); that the recursion is cut off is never noted.
The division of the most negative `long` by minus one is not excluded; `divisions_trap_iff` says of which
texts it is a part.
-/

namespace Lorica.Proof.Stsh

open Lorica.Impl.Stsh List

def InLong (v : Int) : Prop := -2 ^ 63 ≤ v ∧ v < 2 ^ 63

instance (v : Int) : Decidable (InLong v) := inferInstanceAs (Decidable (_ ∧ _))

/-- What may be noted. -/
def Event.Fine : Event → Prop
  | .divided v d => InLong v ∧ InLong d ∧ d ≠ 0
  | .assigned _ v => InLong v
  | .exhausted => False

/-- A function of the evaluator, on texts shorter than `m`. -/
def Sound (m : Nat) (g : Np → Int × Np) : Prop :=
  ∀ a : Np, a.ap.s.length < m → (∀ e ∈ a.notes, e.Fine) →
    InLong (g a).1 ∧ (g a).2.ap.s.length ≤ a.ap.s.length ∧ ∀ e ∈ (g a).2.notes, e.Fine

variable {m n : Nat} {g : Np → Int × Np}

/-! ## Numbers -/

theorem inLong_wrap64 (i : Int) : InLong (wrap64 i) := by
  have hl := Int.le_bmod (x := i) (m := 2 ^ 64) (by decide)
  have hu := Int.bmod_lt (x := i) (m := 2 ^ 64) (by decide)
  unfold InLong wrap64
  omega

theorem inLong_truth (b : Bool) : InLong (truth b) := by
  cases b <;> decide

theorem inLong_tmod {v d : Int} (hd : InLong d) (hne : d ≠ 0) : InLong (v.tmod d) := by
  have hlt : (v.tmod d).natAbs < d.natAbs := by
    rw [Int.natAbs_tmod]
    exact Nat.mod_lt _ (Int.natAbs_pos.mpr hne)
  unfold InLong at hd ⊢
  omega

theorem inLong_unary (c : UInt8) {v : Int} (hv : InLong v) : InLong (unary c v) := by
  unfold unary
  split
  · exact inLong_wrap64 _
  split
  · exact hv
  split
  · split <;> decide
  · unfold InLong at hv ⊢
    omega

theorem inLong_strtolDigits (base : Nat) (negative : Bool) (p : Bytes) : InLong (strtolDigits base negative p).1 := by
  unfold strtolDigits InLong
  dsimp only
  split <;> omega

/-- Either there are no digits, or they are read from a part of the text. -/
theorem strtol_cases (p : Bytes) :
    strtol p = (0, p) ∨ ∃ base negative q, q <:+ p ∧ strtol p = strtolDigits base negative q := by
  -- the text behind the blanks and the sign
  obtain ⟨negative, q, hq, h⟩ : ∃ negative q, q <:+ p ∧ strtol p =
      if (q.head?.any fun c => digitOf c < 10) = false then (0, p)
      else if q.head? ≠ some (byte '0') then strtolDigits 10 negative q
      else if (q[1]? = some (byte 'x') ∨ q[1]? = some (byte 'X')) ∧ (q[2]?.any fun c => digitOf c < 16) then
        strtolDigits 16 negative (q.drop 2)
      else strtolDigits 8 negative q := by
    refine ⟨_, _, ?_, rfl⟩
    split
    · exact (drop_suffix _ _).trans (dropWhile_suffix _)
    · exact dropWhile_suffix _
  rw [h]
  split
  · exact .inl rfl
  right
  split
  · exact ⟨10, negative, q, hq, rfl⟩
  split
  · exact ⟨16, negative, q.drop 2, (drop_suffix _ _).trans hq, rfl⟩
  · exact ⟨8, negative, q, hq, rfl⟩

theorem inLong_strtol (p : Bytes) : InLong (strtol p).1 := by
  obtain h | ⟨base, negative, q, -, h⟩ := strtol_cases p
  · rw [h]
    show InLong 0
    decide
  · rw [h]
    exact inLong_strtolDigits _ _ _

theorem inLong_arVar (nm : Bytes) (env : Env) : InLong (arVar nm env) := by
  unfold arVar
  cases env.get nm with
  | none => decide
  | some v => exact inLong_strtol v

/-! ## Texts -/

theorem length_ws_le (a : Np) : a.ws.ap.s.length ≤ a.ap.s.length := (dropWhile_suffix _).length_le

theorem length_strtol_le (p : Bytes) : (strtol p).2.length ≤ p.length := by
  obtain h | ⟨base, negative, q, hq, h⟩ := strtol_cases p
  · rw [h]
  · rw [h]
    exact ((drop_suffix _ q).trans hq).length_le

/-! ## Operators -/

/-- An operator is read off the text, computes with `long`s and notes no more than it may. -/
def Op.Sound (o : Op) : Prop :=
  o.text ≠ [] ∧ ∀ v w, InLong v → InLong w → InLong (o.apply v w) ∧ ∀ e ∈ o.notes v w, e.Fine

theorem sound_quiet {text : Bytes} {f : Int → Int → Int} (ht : text ≠ []) (hf : ∀ v w, InLong (f v w)) :
    (Op.quiet text f).Sound :=
  ⟨ht, fun v w _ _ => ⟨hf v w, fun _ h => absurd h not_mem_nil⟩⟩

theorem sound_dividing {text : Bytes} {f : Int → Int → Int} (ht : text ≠ [])
    (hf : ∀ v w, InLong w → w ≠ 0 → InLong (f v w)) : (Op.dividing text f).Sound := by
  refine ⟨ht, fun v d hv hd => ?_⟩
  dsimp only [Op.dividing, guarded]
  split
  · exact ⟨by decide, fun _ h => absurd h not_mem_nil⟩
  · rename_i hne
    refine ⟨hf v d hd hne, fun e he => ?_⟩
    rw [mem_singleton.mp he]
    exact ⟨hv, hd, hne⟩

theorem sound_levels : ∀ table ∈ levels, ∀ o ∈ table, o.Sound := by
  have hwrap : ∀ (f : Int → Int → Int) v w, InLong (wrap64 (f v w)) := fun _ _ _ => inLong_wrap64 _
  have htruth : ∀ (f : Int → Int → Bool) v w, InLong (truth (f v w)) := fun _ _ _ => inLong_truth _
  simp only [levels, mulOps, addOps, cmpOps, eqOps, andOps, orOps, forall_mem_cons]
  refine ⟨⟨sound_quiet ?_ (hwrap _), sound_dividing ?_ fun _ _ _ _ => inLong_wrap64 _,
      sound_dividing ?_ fun _ _ => inLong_tmod, ?_⟩,
    ⟨sound_quiet ?_ (hwrap _), sound_quiet ?_ (hwrap _), ?_⟩,
    ⟨sound_quiet ?_ (htruth _), sound_quiet ?_ (htruth _), sound_quiet ?_ (htruth _), sound_quiet ?_ (htruth _), ?_⟩,
    ⟨sound_quiet ?_ (htruth _), sound_quiet ?_ (htruth _), ?_⟩, ⟨sound_quiet ?_ (htruth _), ?_⟩,
    ⟨sound_quiet ?_ (htruth _), ?_⟩, ?_⟩
  all_goals first | decide | exact fun _ h => absurd h not_mem_nil

theorem sound_compounds : ∀ o ∈ compounds, o.Sound := by
  have hwrap : ∀ (f : Int → Int → Int) v w, InLong (wrap64 (f v w)) := fun _ _ _ => inLong_wrap64 _
  simp only [compounds, forall_mem_cons]
  refine ⟨sound_quiet ?_ (hwrap _), sound_quiet ?_ (hwrap _), sound_quiet ?_ (hwrap _),
    sound_dividing ?_ fun _ _ _ _ => inLong_wrap64 _, sound_dividing ?_ fun _ _ => inLong_tmod, ?_⟩
  all_goals first | decide | exact fun _ h => absurd h not_mem_nil

/-! ## The evaluator -/

theorem Sound.prim (h : Sound n g) : Sound (n + 1) (notedPrim g) := by
  intro a ha hfine
  have hws := length_ws_le a
  rw [notedPrim]
  cases hs : a.ws.ap.s with
  | nil => exact ⟨by show InLong 0; decide, hws, hfine⟩
  | cons c s =>
    rw [hs, length_cons] at hws
    dsimp only
    split
    · obtain ⟨hv, hlen, hnotes⟩ := h (a.ws.goto s) (show s.length < n by omega) hfine
      have hws' := length_ws_le (g (a.ws.goto s)).2
      have hlen' : (g (a.ws.goto s)).2.ap.s.length ≤ s.length := hlen
      refine ⟨hv, ?_, ?_⟩
      · split
        · show (drop 1 _).length ≤ _
          rw [length_drop]
          omega
        · exact (hws'.trans hlen').trans (by omega)
      · split <;> exact hnotes
    split
    · refine ⟨inLong_strtol _, ?_, hfine⟩
      have hlen := length_strtol_le (c :: s)
      rw [length_cons] at hlen
      show (strtol (c :: s)).2.length ≤ _
      omega
    split
    · refine ⟨inLong_arVar _ _, ?_, hfine⟩
      have hlen : (arName (c :: s)).2.length ≤ (c :: s).length := (dropWhile_suffix _).length_le
      rw [length_cons] at hlen
      show (arName (c :: s)).2.length ≤ _
      omega
    · refine ⟨by show InLong 0; decide, ?_, hfine⟩
      rw [hs]
      omega

theorem Sound.un (h : Sound m g) (hm : n < m) : Sound (n + 1) (notedUn g n) := by
  induction n with
  | zero =>
    intro a ha hfine
    have hws := length_ws_le a
    have hnil : a.ws.ap.s = [] := eq_nil_of_length_eq_zero (by omega)
    obtain ⟨hv, hlen, hnotes⟩ := h a.ws (by omega) hfine
    rw [notedUn, hnil]
    exact ⟨hv, hlen.trans hws, hnotes⟩
  | succ n ih =>
    intro a ha hfine
    have hws := length_ws_le a
    obtain ⟨hv, hlen, hnotes⟩ := h a.ws (by omega) hfine
    rw [notedUn]
    cases hs : a.ws.ap.s with
    | nil => exact ⟨hv, hlen.trans hws, hnotes⟩
    | cons c s =>
      dsimp only
      split
      · rw [hs, length_cons] at hws
        obtain ⟨hv, hlen, hnotes⟩ := ih (by omega) (a.ws.goto s) (show s.length < n + 1 by omega) hfine
        have hlen' : (notedUn g n (a.ws.goto s)).2.ap.s.length ≤ s.length := hlen
        exact ⟨inLong_unary c hv, by show (notedUn g n (a.ws.goto s)).2.ap.s.length ≤ _; omega, hnotes⟩
      · exact ⟨hv, hlen.trans hws, hnotes⟩

theorem Sound.chain {table : List Op} (htable : ∀ o ∈ table, o.Sound) (h : Sound m g) (hm : n < m) {v : Int}
    (hv : InLong v) : Sound (n + 1) (notedChain table g n v) := by
  have hshort : ∀ {s : Bytes} {r : Op × Bytes}, findOp table s = some r → r.2.length < s.length := by
    intro s r hr
    obtain ⟨hmem, hs⟩ := findOp_some hr
    have hpos := length_pos_of_ne_nil (htable _ hmem).1
    rw [hs, length_append]
    omega
  induction n generalizing v with
  | zero =>
    intro a ha hfine
    have hws := length_ws_le a
    have hnone : (findOp table a.ws.ap.s).isSome = false := by
      cases hr : findOp table a.ws.ap.s with
      | none => rfl
      | some r =>
        have hlt := hshort hr
        omega
    rw [notedChain, hnone]
    exact ⟨hv, hws, hfine⟩
  | succ n ih =>
    intro a ha hfine
    have hws := length_ws_le a
    rw [notedChain]
    cases hr : findOp table a.ws.ap.s with
    | none => exact ⟨hv, hws, hfine⟩
    | some r =>
      have hlt := hshort hr
      obtain ⟨hw, hlen, hnotes⟩ := h (a.ws.goto r.2) (show r.2.length < m by omega) hfine
      have hlen' : (g (a.ws.goto r.2)).2.ap.s.length ≤ r.2.length := hlen
      obtain ⟨happly, hnoted⟩ := (htable _ (findOp_some hr).1).2 _ _ hv hw
      obtain ⟨hv', hlen'', hnotes'⟩ := ih (by omega) happly ((g (a.ws.goto r.2)).2.note _)
        (show (g (a.ws.goto r.2)).2.ap.s.length < n + 1 by omega) (by
          intro e he
          obtain he | he := mem_append.mp he
          · exact hnotes e he
          · exact hnoted e he)
      exact ⟨hv', hlen''.trans (show (g (a.ws.goto r.2)).2.ap.s.length ≤ _ by omega), hnotes'⟩

theorem Sound.level {table : List Op} (htable : ∀ o ∈ table, o.Sound) (h : Sound m g) :
    Sound m (notedLevel table g) := by
  intro a ha hfine
  obtain ⟨hv, hlen, hnotes⟩ := h a ha hfine
  obtain ⟨hv', hlen', hnotes'⟩ := h.chain htable (Nat.lt_of_le_of_lt hlen ha) hv _ (Nat.lt_succ_self _) hnotes
  exact ⟨hv', hlen'.trans hlen, hnotes'⟩

theorem Sound.climb {tables : List (List Op)} (htables : ∀ table ∈ tables, ∀ o ∈ table, o.Sound) (h : Sound m g) :
    Sound m (climb g tables) := by
  induction tables generalizing g with
  | nil => exact h
  | cons table tables ih =>
    rw [forall_mem_cons] at htables
    exact ih htables.2 (h.level htables.1)

theorem sound_notedSet (nm : Bytes) {v : Int} {a : Np} (hv : InLong v) (hfine : ∀ e ∈ a.notes, e.Fine) :
    InLong (notedSet nm v a).1 ∧ (notedSet nm v a).2.ap.s = a.ap.s ∧ ∀ e ∈ (notedSet nm v a).2.notes, e.Fine := by
  refine ⟨hv, rfl, fun e he => ?_⟩
  obtain he | he := mem_append.mp he
  · exact hfine e he
  · rw [mem_singleton.mp he]
    exact hv

theorem notedAssign_sound (n : Nat) : Sound n (notedAssign n) := by
  induction n with
  | zero => exact fun a ha => absurd ha (Nat.not_lt_zero _)
  | succ n ih =>
    intro a ha hfine
    have hws := length_ws_le a
    have hplain := ((ih.prim).un (Nat.lt_of_le_of_lt hws ha)).climb sound_levels a.ws (Nat.lt_succ_self _) hfine
    have hname : ((arName a.ws.ap.s).2.dropWhile fun c => c = space || c = tab) <:+ a.ws.ap.s :=
      (dropWhile_suffix _).trans (dropWhile_suffix _)
    have hrest := hname.length_le
    rw [notedAssign]
    dsimp only
    generalize ((arName a.ws.ap.s).2.dropWhile fun c => c = space || c = tab) = r at hrest
    split
    · split
      · rename_i hset
        have hpos : 0 < r.length := length_pos_iff.mpr fun hnil => by simp [hnil] at hset
        have hdrop : (r.drop 1).length < r.length := by rw [length_drop]; omega
        obtain ⟨hv, hlen, hnotes⟩ := ih (a.ws.goto (r.drop 1)) (show (r.drop 1).length < n by omega) hfine
        obtain ⟨hv', hlen', hnotes'⟩ := sound_notedSet (arName a.ws.ap.s).1 hv hnotes
        refine ⟨hv', ?_, hnotes'⟩
        exact hlen.trans (show (r.drop 1).length ≤ _ by omega)
      · cases ho : findOp compounds r with
        | none =>
          dsimp only
          exact ⟨hplain.1, hplain.2.1.trans hws, hplain.2.2⟩
        | some o =>
          obtain ⟨hmem, hr⟩ := findOp_some ho
          have hsound := sound_compounds _ hmem
          have hpos := length_pos_of_ne_nil hsound.1
          rw [hr, length_append] at hrest
          obtain ⟨hv, hlen, hnotes⟩ := ih (a.ws.goto o.2) (show o.2.length < n by omega) hfine
          obtain ⟨happly, hnoted⟩ :=
            hsound.2 _ _ (inLong_arVar (arName a.ws.ap.s).1 (notedAssign n (a.ws.goto o.2)).2.ap.env) hv
          obtain ⟨hv', hlen', hnotes'⟩ := sound_notedSet (arName a.ws.ap.s).1
            (a := (notedAssign n (a.ws.goto o.2)).2.note _) happly fun e he =>
              (mem_append.mp he).elim (hnotes e) (hnoted e)
          refine ⟨hv', ?_, hnotes'⟩
          exact hlen.trans (show o.2.length ≤ _ by omega)
    · exact ⟨hplain.1, hplain.2.1.trans hws, hplain.2.2⟩

theorem notedEval_fine (expr : Bytes) (env : Env) : ∀ e ∈ (notedEval expr env).2.notes, e.Fine :=
  (notedAssign_sound (expr.length + 1) ⟨⟨expr, env⟩, []⟩ (Nat.lt_succ_self _) fun _ h => absurd h not_mem_nil).2.2

/-- On a processor with 64-bit integers, the division traps. -/
def Traps (v d : Int) : Prop := d = 0 ∨ v = -2 ^ 63 ∧ d = -1

/-- The evaluator comes to its end with the value of the expression that it takes the text for. Its divisions are of
`long`s, none by zero, and none traps just if the expression nowhere divides the most negative `long` by minus one. -/
theorem divisions_trap_iff (expr : Bytes) (env : Env) :
    ((notedEval expr env).1, (notedEval expr env).2.ap.env) = arithEval expr env ∧
    (treeOf expr).eval env = arithEval expr env ∧
    Event.exhausted ∉ (notedEval expr env).2.notes ∧
    (∀ v d, .divided v d ∈ (notedEval expr env).2.notes → InLong v ∧ InLong d ∧ d ≠ 0) ∧
    ((∀ v d, .divided v d ∈ (notedEval expr env).2.notes → ¬Traps v d) ↔ (treeOf expr).Safe env) := by
  have hfine := notedEval_fine expr env
  obtain ⟨heval, hsafe⟩ := notedEval_tree expr env
  refine ⟨notedEval_erase expr env, heval.symm.trans (notedEval_erase expr env), fun h => hfine _ h,
    fun v d hmem => hfine _ hmem, ?_⟩
  rw [← hsafe]
  constructor
  · exact fun h hmem => h _ _ hmem (.inr ⟨rfl, rfl⟩)
  · rintro h v d hmem (hzero | ⟨rfl, rfl⟩)
    · exact (hfine _ hmem).2.2 hzero
    · exact h hmem

/-- `$(( (-9223372036854775807 - 1) / -1 ))`. -/
theorem most_negative_by_minus_one :
    .divided (-2 ^ 63) (-1) ∈ (notedEval (ascii "(-9223372036854775807 - 1) / -1") (Env.init [])).2.notes ∧
    Traps (-2 ^ 63) (-1) :=
  ⟨by decide, .inr ⟨rfl, rfl⟩⟩

end Lorica.Proof.Stsh

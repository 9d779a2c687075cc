import Lorica.Impl.Stsh.Expand

/-!
# A quoted string as a word of stsh

A string is written as a word in single quotes, or in double quotes with a backslash before each
character that is special there (`Quote.write`). The lexer keeps such a word as it is
(`lexWord_write`), and the expansion of the word is a field builder that has taken the
characters of the string, with the mark that they were quoted (`expandWord_write`).

What is left is to finish the field. The builder tells a field from no field by whether it has
any characters, so a string that is not empty is one argument, whatever characters it has and
whatever files there are, and the empty string is none (`quoted_one_argument_iff`).
-/

namespace Lorica.Proof.Stsh

open Lorica.Impl.Stsh List

/-- The two kinds of quotes. -/
inductive Quote
  | single
  | double
deriving DecidableEq

/-- A string for the inside of double quotes. -/
def escape (s : Bytes) : Bytes := s.flatMap fun c => if isSpecial c then [backslash, c] else [c]

/-- A string as a word. -/
def Quote.write : Quote → Bytes → Bytes
  | .single, s => squote :: (s ++ [squote])
  | .double, s => dquote :: (escape s ++ [dquote])

/-- The strings that can be written so. -/
def Quote.Takes : Quote → Bytes → Prop
  | .single, s => squote ∉ s
  | .double, _ => True

/-- What can follow a word: nothing, or a character that ends it. -/
def WordEnds (rest : Bytes) : Prop := ∀ c ∈ rest.head?, endsWord c = true

variable {cap : Nat} {arena rest s : Bytes} {w : World} {b : Fb} {sh : Sh}

theorem length_le_escape (s : Bytes) : s.length ≤ (escape s).length := by
  induction s with
  | nil => exact Nat.le_refl 0
  | cons c s ih =>
    have hlen : (escape (c :: s)).length = (if isSpecial c then [backslash, c] else [c]).length + (escape s).length :=
      length_append
    rw [hlen]
    split <;> simp only [length_cons] <;> omega

theorem nul_not_mem_write (q : Quote) (h : (0 : UInt8) ∉ s) : (0 : UInt8) ∉ q.write s := by
  cases q with
  | single => simp [Quote.write, h, squote]
  | double =>
    have hescape : (0 : UInt8) ∉ escape s := by
      intro hmem
      obtain ⟨c, hc, hin⟩ := mem_flatMap.mp hmem
      have hne : (0 : UInt8) ≠ c := fun h0 => h (h0 ▸ hc)
      split at hin <;> simp [backslash, hne] at hin
    simp [Quote.write, hescape, dquote]

/-! ## The lexer -/

theorem foldl_put (cs : Bytes) (h : arena.length + cs.length < cap) : cs.foldl (put cap) arena = arena ++ cs := by
  induction cs generalizing arena with
  | nil => simp
  | cons c cs ih =>
    have hput : put cap arena c = arena ++ [c] := if_pos (by simp only [length_cons] at h; omega)
    rw [foldl_cons, hput, ih (by simp only [length_append, length_cons, length_nil] at h ⊢; omega)]
    simp

theorem lexFrom_plain_end (h : WordEnds rest) : lexFrom cap .plain rest arena = (rest, arena) := by
  cases rest with
  | nil => rfl
  | cons c p => exact if_pos ⟨rfl, h c rfl⟩

theorem lexFrom_single (h : squote ∉ s) : lexFrom cap .single (s ++ squote :: rest) arena =
    lexFrom cap .plain rest ((s ++ [squote]).foldl (put cap) arena) := by
  induction s generalizing arena with
  | nil => simp [lexFrom, Loop.next]
  | cons c s ih =>
    rw [mem_cons, not_or] at h
    rw [cons_append, lexFrom, Loop.next, if_neg (Ne.symm h.1), ih h.2]
    simp

theorem lexFrom_double (s : Bytes) : lexFrom cap .double (escape s ++ dquote :: rest) arena =
    lexFrom cap .plain rest ((escape s ++ [dquote]).foldl (put cap) arena) := by
  induction s generalizing arena with
  | nil => simp [lexFrom, Loop.next, escape]
  | cons c s ih =>
    have hcons : escape (c :: s) = (if isSpecial c then [backslash, c] else [c]) ++ escape s := rfl
    rw [hcons]
    cases hc : isSpecial c with
    | true =>
      -- the backslash takes the character along, so a quote does not close
      simp only [if_true, cons_append, nil_append, foldl_cons]
      rw [← ih]
      simp [lexFrom, Loop.next, show backslash ≠ dquote by decide]
    | false =>
      simp only [isSpecial, Bool.or_eq_false_iff, decide_eq_false_iff_not] at hc
      simp only [Bool.false_eq_true, if_false, cons_append, nil_append, foldl_cons]
      rw [← ih]
      simp [lexFrom, Loop.next, hc.1.1.1, hc.1.1.2]

/-- A quoted string is copied into the arena, and the word ends behind it. -/
theorem lexWord_write (q : Quote) (hs : q.Takes s) (hrest : WordEnds rest)
    (hfits : arena.length + (q.write s).length + 1 < cap) :
    lexWord cap (q.write s ++ rest) arena = (rest, arena ++ q.write s ++ [0]) := by
  have hlex : lexFrom cap .plain (q.write s ++ rest) arena = (rest, arena ++ q.write s) := by
    have hput : (q.write s).foldl (put cap) arena = arena ++ q.write s := foldl_put _ (by omega)
    rw [← hput]
    cases q with
    | single =>
      simp only [Quote.write, cons_append, append_assoc, nil_append]
      rw [lexFrom, Loop.next, if_pos rfl, lexFrom_single hs, lexFrom_plain_end hrest]
      rfl
    | double =>
      simp only [Quote.write, cons_append, append_assoc, nil_append]
      rw [lexFrom, if_neg (by decide), Loop.next, if_neg (by decide), if_pos rfl, lexFrom_double,
        lexFrom_plain_end hrest]
      rfl
  have hput : put cap (arena ++ q.write s) 0 = arena ++ q.write s ++ [0] :=
    if_pos (by rw [length_append]; omega)
  rw [lexWord, hlex, hput]

/-! ## The expansion -/

theorem fbPuts_of_room (s : Bytes) (h : b.used + s.length < b.arenacap) :
    fbPuts b s = { b with used := b.used + s.length, field := b.field ++ s } := by
  induction s generalizing b with
  | nil => simp [fbPuts]
  | cons c s ih =>
    rw [length_cons] at h
    have hput : fbPutc b c = { b with used := b.used + 1, field := b.field ++ [c] } := if_pos (by omega)
    show fbPuts (fbPutc b c) s = _
    rw [hput, ih (by show b.used + 1 + s.length < b.arenacap; omega)]
    simp [Nat.add_assoc, Nat.add_comm 1]

theorem expandDouble_escape (one : Bytes → Sh → Bytes × Sh) (s : Bytes) {n : Nat} (hn : s.length < n) :
    expandDouble w one n (escape s ++ [dquote]) b sh = ⟨[], fbPuts b s, sh⟩ := by
  induction s generalizing n b with
  | nil =>
    obtain ⟨n, rfl⟩ := Nat.exists_eq_succ_of_ne_zero (Nat.ne_of_gt hn)
    rfl
  | cons c s ih =>
    obtain ⟨n, rfl⟩ := Nat.exists_eq_succ_of_ne_zero (Nat.ne_of_gt (Nat.zero_lt_of_lt hn))
    have hcons : escape (c :: s) = (if isSpecial c then [backslash, c] else [c]) ++ escape s := rfl
    have hput : fbPuts b (c :: s) = fbPuts (fbPutc b c) s := rfl
    rw [hcons, hput, ← ih (Nat.lt_of_succ_lt_succ hn)]
    cases hc : isSpecial c with
    | true =>
      simp only [if_true, cons_append]
      rw [expandDouble, if_neg (by decide), if_neg (by decide), if_neg (by decide), if_pos ⟨rfl, hc⟩]
      rfl
    | false =>
      simp only [isSpecial, Bool.or_eq_false_iff, decide_eq_false_iff_not] at hc
      simp only [Bool.false_eq_true, if_false, cons_append, nil_append]
      rw [expandDouble, if_neg hc.1.1.1, if_neg hc.1.2, if_neg hc.2, if_neg (fun h => hc.1.1.2 h.1)]

/-- The expansion of a quoted string takes its characters, marks them as quoted and finishes the field. -/
theorem expandWord_write (q : Quote) (hs : q.Takes s) :
    expandWord w (q.write s) b sh = (fbFinish w (fbPuts { b with fquoted := true } s), sh) := by
  cases q with
  | single =>
    have htake : (s ++ [squote]).takeWhile (· ≠ squote) = s := takeWhile_ne_of_not_mem hs []
    rw [Quote.write, expandWord, expandFrom, if_pos rfl]
    simp only [htake, drop_left]
    rfl
  | double =>
    have hlen : s.length < (escape s ++ [dquote]).length + 1 := by
      have hle := length_le_escape s
      rw [length_append]
      omega
    rw [Quote.write, expandWord, length_cons, expandFrom, if_pos rfl]
    simp only [expandDouble_escape _ s hlen]
    rfl

/-- The word that `lex_word` has put at the end of the arena. -/
def lexed (cap : Nat) (p arena : Bytes) : Bytes := cstr ((lexWord cap p arena).2.drop arena.length)

theorem lexed_write (q : Quote) (hnul : (0 : UInt8) ∉ s) (hs : q.Takes s) (hrest : WordEnds rest)
    (hfits : arena.length + (q.write s).length + 1 < cap) : lexed cap (q.write s ++ rest) arena = q.write s := by
  rw [lexed, lexWord_write q hs hrest hfits, append_assoc, drop_left]
  exact takeWhile_ne_of_not_mem (nul_not_mem_write q hnul) []

/-- A quoted field is never a pattern: it is finished as the argument it is, if it has any characters. -/
theorem argv_fbFinish_quoted (hq : b.fquoted = true) (hargs : b.argv.length < b.maxargc) :
    (fbFinish w b).argv = if b.field = [] then b.argv else b.argv ++ [some b.field] := by
  have hpattern : (if !b.fquoted && !b.noglob && hasPattern b.field then w.glob b.field else []) = [] := by simp [hq]
  unfold fbFinish
  rw [hpattern]
  split
  · rfl
  · have harg : ∀ u : Nat, fbArg { b with used := u } (some b.field) =
        { b with used := u, argv := b.argv ++ [some b.field] } := fun u => if_pos hargs
    split
    · simp only [if_true, harg]
    · simp only [if_true, harg b.used]

/-- A quoted string is lexed as one word, and the word is expanded to one argument, which is the string, just if the
string is not empty. -/
theorem quoted_one_argument_iff (w : World) (sh : Sh) (q : Quote) (hnul : (0 : UInt8) ∉ s) (hs : q.Takes s)
    (hrest : WordEnds rest) (hfits : arena.length + (q.write s).length + 1 < cap) (hnew : b.field = [])
    (hroom : b.used + s.length < b.arenacap) (hargs : b.argv.length < b.maxargc) :
    (lexWord cap (q.write s ++ rest) arena).1 = rest ∧
      ((expandWord w (lexed cap (q.write s ++ rest) arena) b sh).1.argv = b.argv ++ [some s] ↔ s ≠ []) := by
  refine ⟨congrArg Prod.fst (lexWord_write q hs hrest hfits), ?_⟩
  rw [lexed_write q hnul hs hrest hfits, expandWord_write q hs]
  have hputs : fbPuts { b with fquoted := true } s =
      { b with fquoted := true, used := b.used + s.length, field := [] ++ s } := by
    rw [← hnew]
    exact fbPuts_of_room s hroom
  show (fbFinish w (fbPuts { b with fquoted := true } s)).argv = _ ↔ _
  rw [hputs, argv_fbFinish_quoted
    (b := { b with fquoted := true, used := b.used + s.length, field := [] ++ s }) rfl hargs]
  by_cases hempty : s = []
  · simp [hempty]
  · simp [hempty]

/-- A shell with nothing set, in a world without files in which no command prints anything. -/
def noWorld : World := ⟨1, fun _ => [], fun _ _ => []⟩

def newShell : Sh := ⟨⟨[], Nat.zero_le _⟩, [], ascii "stsh", 0⟩

theorem quoted_pattern_one_argument :
    (expandWord noWorld (lexed 8192 (ascii "\"a  *\" b") []) argvFb newShell).1.argv = [some (ascii "a  *")] :=
  (quoted_one_argument_iff (s := ascii "a  *") (b := argvFb) noWorld newShell .double (by decide) trivial
    (show WordEnds (ascii " b") by unfold WordEnds; decide +kernel) (by decide +kernel) rfl (by decide +kernel)
    (by decide)).2.mpr (by decide)

/-- Empty quotes are no argument. -/
theorem empty_quotes_no_argument : (expandWord noWorld (lexed 8192 (ascii "''") []) argvFb newShell).1.argv = [] ∧
    (expandWord noWorld (lexed 8192 (ascii "\"\"") []) argvFb newShell).1.argv = [] := by
  decide

end Lorica.Proof.Stsh

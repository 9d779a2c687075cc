import Lorica.Proof.Stsh.Scan

/-!
# Where the tokens of stsh are stored

The pieces of a text are stored one behind the other, each text with a NUL. As long as they fit
they are laid out as they should be (`storeAll_laid`). A word that does not fit makes `tokenize`
fail. The body of a here-document that does not fit is cut, loses its NUL, and is a token all
the same (`storeAll_cut`). So the tokens are well stored just if all the texts fit:
`tokens_stored_iff`.
-/

namespace Lorica.Proof.Stsh

open Lorica.Impl.Stsh List

/-- Where the texts of the tokens begin. -/
def offsets (s : Lex) : List Nat := s.toks.filterMap Tok.text

/-- Every text is ended by a NUL in the arena, before the next one begins. -/
structure Laid (s : Lex) : Prop where
  ended : ∀ o ∈ offsets s, (0 : UInt8) ∈ s.arena.drop o
  apart : (offsets s).Pairwise fun o o' => o + (cstr (s.arena.drop o)).length < o'

/-- What is expected of `tokenize`: it writes within its arrays, and when it succeeds the last token is the end, there
are fewer tokens before it than the limit, just the words have texts, and these are laid out in the arena. -/
structure Stored (maxtoks arenalen : Nat) (r : Bool × Lex) : Prop where
  toks_le : r.2.toks.length ≤ maxtoks
  arena_le : r.2.arena.length ≤ arenalen
  eof : r.1 = true → ∃ ts, r.2.toks = ts ++ [⟨.eof, none⟩] ∧ ts.length < maxtoks
  words : r.1 = true → ∀ t ∈ r.2.toks, t.text.isSome = true ↔ t.type = .word
  laid : r.1 = true → Laid r.2

/-- The bytes that a piece takes in the arena. -/
def Piece.size : Piece → Nat
  | .op _ => 0
  | .word w => w.length + 1
  | .heredoc body => body.length + 1

def storage (ps : List Piece) : Nat := (ps.map Piece.size).sum

variable {maxtoks arenalen : Nat} {s : Lex} {ps : List Piece}

/-! ## Texts in the arena -/

theorem cstr_append {l : Bytes} (h : (0 : UInt8) ∈ l) (x : Bytes) : cstr (l ++ x) = cstr l := by
  obtain ⟨l1, l2, rfl⟩ := append_of_mem h
  rw [cstr, cstr, append_assoc, cons_append, takeWhile_append_stop _ _ (by simp),
    takeWhile_append_stop _ _ (by simp)]

theorem length_cstr_lt {l : Bytes} (h : (0 : UInt8) ∈ l) : (cstr l).length < l.length := by
  obtain ⟨l1, l2, rfl⟩ := append_of_mem h
  rw [cstr, takeWhile_append_stop _ _ (by simp), length_append, length_cons]
  have hle := ( takeWhile_prefix (p := (· ≠ (0 : UInt8))) (l := l1)).length_le
  omega

theorem Laid.lt (h : Laid s) {o : Nat} (ho : o ∈ offsets s) : o < s.arena.length := by
  have hmem := h.ended o ho
  by_contra hle
  rw [drop_eq_nil_of_le (Nat.le_of_not_lt hle)] at hmem
  exact not_mem_nil hmem

/-- A text of which nothing is overwritten when the arena grows. -/
theorem Laid.drop_append (h : Laid s) {o : Nat} (ho : o ∈ offsets s) (x : Bytes) :
    (s.arena ++ x).drop o = s.arena.drop o ++ x := drop_append_of_le_length (Nat.le_of_lt (h.lt ho))

theorem Laid.push (h : Laid s) (type : TokType) : Laid (s.push type) := by
  have hoff : offsets (s.push type) = offsets s := by simp [offsets, Lex.push]
  exact ⟨hoff ▸ h.ended, hoff ▸ h.apart⟩

/-- One more text. -/
theorem Laid.text (h : Laid s) {toks : List Tok} (w : Bytes)
    (htoks : toks.filterMap Tok.text = offsets s ++ [s.arena.length]) : Laid ⟨toks, s.arena ++ (w ++ [0])⟩ := by
  have hnew : (s.arena ++ (w ++ [0])).drop s.arena.length = w ++ [0] := drop_left
  refine ⟨fun o ho => ?_, ?_⟩
  · rw [offsets, htoks, mem_append, mem_singleton] at ho
    rcases ho with ho | rfl
    · rw [h.drop_append ho]
      exact mem_append_left _ (h.ended o ho)
    · rw [hnew]
      exact mem_append_right _ (mem_singleton_self _)
  · rw [offsets, htoks, pairwise_append]
    refine ⟨h.apart.imp_of_mem fun ho _ hlt => ?_, pairwise_singleton _ _, fun o ho o' ho' => ?_⟩
    · rwa [h.drop_append ho, cstr_append (h.ended _ ho)]
    · rw [mem_singleton.mp ho', h.drop_append ho, cstr_append (h.ended o ho)]
      have hlt := length_cstr_lt (h.ended o ho)
      rw [length_drop] at hlt
      omega

/-! ## What a piece does -/

variable {cap : Nat} {arena : Bytes} {type : TokType}

/-- A text that fits is put whole, with its NUL. -/
theorem put_of_fits (w : Bytes) (h : arena.length + (w.length + 1) ≤ cap - 1) :
    (w ++ [0]).foldl (put cap) arena = arena ++ (w ++ [0]) := by
  rw [foldl_put_eq, take_of_length_le]
  simp only [length_append, length_singleton]
  omega

/-- A text that does not fit is cut and fills the arena, and has no NUL. -/
theorem put_of_not_fits (w : Bytes) (h : ¬ arena.length + (w.length + 1) ≤ cap - 1) :
    (w ++ [0]).foldl (put cap) arena = arena ++ w.take (cap - 1 - arena.length) := by
  rw [foldl_put_eq, take_append_of_le_length (by omega)]

/-- What is written is within the arrays, with room for one more token. -/
structure Within (maxtoks arenalen : Nat) (s : Lex) : Prop where
  toks : s.toks.length ≤ maxtoks - 1
  arena : s.arena.length ≤ arenalen - 1

theorem length_put_le (cs : Bytes) (h : arena.length ≤ cap - 1) : (cs.foldl (put cap) arena).length ≤ cap - 1 := by
  rw [foldl_put_eq, length_append, length_take]
  omega

theorem store_within (h : Within maxtoks arenalen s) (p : Piece) :
    Within maxtoks arenalen (store maxtoks arenalen s p).2 := by
  cases p with
  | op type =>
    rw [store]
    split
    · exact h
    · exact ⟨by simp only [Lex.push, length_append, length_singleton]; omega, h.arena⟩
  | word w =>
    rw [store]
    split
    · exact h
    · exact ⟨by simp; omega, length_put_le _ h.arena⟩
  | heredoc body =>
    rw [store]
    split
    · exact h
    · split
      · exact ⟨by simp; omega, length_put_le _ h.arena⟩
      · exact ⟨by simp; omega, length_put_le _ h.arena⟩

/-- A word that has been stored has been stored whole. -/
theorem store_word {w : Bytes} (h : (store maxtoks arenalen s (.word w)).1 = true) :
    s.arena.length + (w.length + 1) ≤ arenalen - 1 ∧
      (store maxtoks arenalen s (.word w)).2 = ⟨s.toks ++ [⟨.word, some s.arena.length⟩], s.arena ++ (w ++ [0])⟩ := by
  rw [store] at h ⊢
  split at h
  · exact absurd h Bool.false_ne_true
  · rename_i hroom
    rw [if_neg hroom]
    have hlt := of_decide_eq_true h
    by_cases hfits : s.arena.length + (w.length + 1) ≤ arenalen - 1
    · exact ⟨hfits, by rw [put_of_fits w hfits]⟩
    · rw [put_of_not_fits w hfits, length_append, length_take] at hlt
      omega

theorem store_heredoc {body : Bytes} (h : (store maxtoks arenalen s (.heredoc body)).1 = true) :
    (store maxtoks arenalen s (.heredoc body)).2 =
      ⟨s.toks ++ [⟨.dless, none⟩, ⟨.word, some s.arena.length⟩, ⟨.newline, none⟩],
        (body ++ [0]).foldl (put arenalen) s.arena⟩ := by
  rw [store] at h ⊢
  split at h
  · exact absurd h Bool.false_ne_true
  · rename_i hroom
    rw [if_neg hroom]
    split at h
    · exact absurd h Bool.false_ne_true
    · rename_i hroom'
      rw [if_neg hroom']

theorem store_op (h : (store maxtoks arenalen s (.op type)).1 = true) :
    (store maxtoks arenalen s (.op type)).2 = s.push type := by
  rw [store] at h ⊢
  split at h
  · exact absurd h Bool.false_ne_true
  · rename_i hroom
    rw [if_neg hroom]

/-- What `tokenize` has stored when it succeeds, and when it fails. -/
theorem storeAll_cons (p : Piece) (ps : List Piece) : storeAll maxtoks arenalen (p :: ps) s =
    if (store maxtoks arenalen s p).1 then storeAll maxtoks arenalen ps (store maxtoks arenalen s p).2
    else store maxtoks arenalen s p := rfl

theorem storeAll_ok {p : Piece} (h : (storeAll maxtoks arenalen (p :: ps) s).1 = true) :
    (store maxtoks arenalen s p).1 = true ∧
      storeAll maxtoks arenalen (p :: ps) s = storeAll maxtoks arenalen ps (store maxtoks arenalen s p).2 := by
  rw [storeAll_cons] at h ⊢
  split at h
  · rename_i hok
    exact ⟨hok, if_pos hok⟩
  · rename_i hok
    exact absurd h hok

/-! ## What all the pieces do -/

theorem storeAll_within (h : Within maxtoks arenalen s) (ps : List Piece) :
    (storeAll maxtoks arenalen ps s).2.arena.length ≤ arenalen - 1 ∧
      ((storeAll maxtoks arenalen ps s).1 = false → (storeAll maxtoks arenalen ps s).2.toks.length ≤ maxtoks - 1) ∧
      ((storeAll maxtoks arenalen ps s).1 = true →
        ∃ ts, (storeAll maxtoks arenalen ps s).2.toks = ts ++ [⟨.eof, none⟩] ∧
        ts.length ≤ maxtoks - 1) := by
  induction ps generalizing s with
  | nil => exact ⟨h.arena, fun hf => absurd hf.symm Bool.false_ne_true, fun _ => ⟨s.toks, rfl, h.toks⟩⟩
  | cons p ps ih =>
    rw [storeAll_cons]
    split
    · exact ih (store_within h p)
    · rename_i hfail
      have hp := store_within h p
      exact ⟨hp.arena, fun _ => hp.toks, fun hok => absurd hok hfail⟩

/-- Just the words have texts. -/
def WordTexts (s : Lex) : Prop := ∀ t ∈ s.toks, t.text.isSome = true ↔ t.type = .word

theorem WordTexts.append (h : WordTexts s) {toks : List Tok}
    (htoks : ∀ t ∈ toks, t.text.isSome = true ↔ t.type = .word) : WordTexts ⟨s.toks ++ toks, arena⟩ :=
  forall_mem_append.mpr ⟨h, htoks⟩

theorem storeAll_words (h : WordTexts s) (hops : ∀ type, Piece.op type ∈ ps → type ≠ .word)
    (hok : (storeAll maxtoks arenalen ps s).1 = true) : WordTexts (storeAll maxtoks arenalen ps s).2 := by
  induction ps generalizing s with
  | nil => exact h.append (by decide)
  | cons p ps ih =>
    obtain ⟨hp, heq⟩ := storeAll_ok hok
    have hrest : ∀ type, Piece.op type ∈ ps → type ≠ .word := fun type ht => hops type (mem_cons_of_mem _ ht)
    rw [heq] at hok ⊢
    cases p with
    | op type =>
      have htype := hops type mem_cons_self
      rw [store_op hp] at hok ⊢
      exact ih (h.append (forall_mem_singleton.mpr (by simp [htype]))) hrest hok
    | word w =>
      rw [(store_word hp).2] at hok ⊢
      exact ih (h.append (forall_mem_singleton.mpr (by simp))) hrest hok
    | heredoc body =>
      rw [store_heredoc hp] at hok ⊢
      exact ih (h.append (by simp)) hrest hok

/-- Texts that all fit are laid out. -/
theorem storeAll_laid (h : Laid s) (hfits : s.arena.length + storage ps ≤ arenalen - 1)
    (hok : (storeAll maxtoks arenalen ps s).1 = true) : Laid (storeAll maxtoks arenalen ps s).2 := by
  induction ps generalizing s with
  | nil => exact h.push .eof
  | cons p ps ih =>
    have hsum : storage (p :: ps) = p.size + storage ps := sum_cons
    obtain ⟨hp, heq⟩ := storeAll_ok hok
    rw [heq] at hok ⊢
    cases p with
    | op type =>
      rw [store_op hp] at hok ⊢
      exact ih (h.push type) (by rw [hsum] at hfits; exact hfits.trans' (by simp [Lex.push])) hok
    | word w =>
      rw [(store_word hp).2] at hok ⊢
      refine ih (h.text w (by simp [offsets])) ?_ hok
      simp only [length_append, length_singleton]
      simp only [hsum, Piece.size] at hfits
      omega
    | heredoc body =>
      rw [store_heredoc hp, put_of_fits body (by simp only [hsum, Piece.size] at hfits; omega)] at hok ⊢
      refine ih (h.text body (by simp [offsets])) ?_ hok
      simp only [length_append, length_singleton]
      simp only [hsum, Piece.size] at hfits
      omega

/-- An arena that is full stays as it is, and the texts where they are. -/
theorem storeAll_full (hfull : arenalen - 1 ≤ s.arena.length) (hok : (storeAll maxtoks arenalen ps s).1 = true) :
    (storeAll maxtoks arenalen ps s).2.arena = s.arena ∧
      ∀ o ∈ offsets s, o ∈ offsets (storeAll maxtoks arenalen ps s).2 := by
  induction ps generalizing s with
  | nil => exact ⟨rfl, fun o ho => by simpa [offsets, storeAll, Lex.push] using ho⟩
  | cons p ps ih =>
    obtain ⟨hp, heq⟩ := storeAll_ok hok
    rw [heq] at hok ⊢
    cases p with
    | op type =>
      rw [store_op hp] at hok ⊢
      obtain ⟨harena, hoff⟩ := ih (s := s.push type) hfull hok
      exact ⟨harena, fun o ho => hoff o (by simpa [offsets, Lex.push] using ho)⟩
    | word w =>
      have hfits := (store_word hp).1
      omega
    | heredoc body =>
      have hsame : (body ++ [0]).foldl (put arenalen) s.arena = s.arena := by
        rw [foldl_put_eq, show arenalen - 1 - s.arena.length = 0 by omega, take_zero, append_nil]
      rw [store_heredoc hp, hsame] at hok ⊢
      obtain ⟨harena, hoff⟩ := ih
        (s := ⟨s.toks ++ [⟨.dless, none⟩, ⟨.word, some s.arena.length⟩, ⟨.newline, none⟩], s.arena⟩)
        hfull hok
      refine ⟨harena, fun o ho => hoff o ?_⟩
      rw [offsets, filterMap_append]
      exact mem_append_left _ ho

/-- Where not all texts fit and `tokenize` succeeds, there is a body without a NUL. -/
theorem storeAll_cut (hle : s.arena.length ≤ arenalen - 1) (hnul : ∀ p ∈ ps, (0 : UInt8) ∉ p.chars)
    (hfits : ¬ s.arena.length + storage ps ≤ arenalen - 1) (hok : (storeAll maxtoks arenalen ps s).1 = true) :
    ∃ o ∈ offsets (storeAll maxtoks arenalen ps s).2,
      (0 : UInt8) ∉ (storeAll maxtoks arenalen ps s).2.arena.drop o := by
  induction ps generalizing s with
  | nil => exact absurd hle hfits
  | cons p ps ih =>
    have hsum : storage (p :: ps) = p.size + storage ps := sum_cons
    obtain ⟨hp, heq⟩ := storeAll_ok hok
    obtain ⟨hchars, hrest⟩ := forall_mem_cons.mp hnul
    rw [heq] at hok ⊢
    cases p with
    | op type =>
      rw [store_op hp] at hok ⊢
      refine ih (s := s.push type) hle hrest ?_ hok
      show ¬ s.arena.length + storage ps ≤ arenalen - 1
      simp only [hsum, Piece.size] at hfits
      omega
    | word w =>
      obtain ⟨hroom, hstored⟩ := store_word hp
      rw [hstored] at hok ⊢
      refine ih ?_ hrest ?_ hok
      · simp only [length_append]
        omega
      · simp only [hsum, Piece.size] at hfits
        simp only [length_append, length_singleton]
        omega
    | heredoc body =>
      rw [store_heredoc hp] at hok ⊢
      by_cases hbody : s.arena.length + (body.length + 1) ≤ arenalen - 1
      · rw [put_of_fits body hbody] at hok ⊢
        refine ih ?_ hrest ?_ hok
        · simp only [length_append]
          omega
        · simp only [hsum, Piece.size] at hfits
          simp only [length_append, length_singleton]
          omega
      · -- the body is cut: the arena is full, and where the body begins there is no NUL to come
        rw [put_of_not_fits body hbody] at hok ⊢
        have hlen : (s.arena ++ body.take (arenalen - 1 - s.arena.length)).length = arenalen - 1 := by
          rw [length_append, length_take]
          omega
        obtain ⟨harena, hoff⟩ := storeAll_full (Nat.le_of_eq hlen.symm) hok
        refine ⟨s.arena.length, hoff _ (by simp [offsets]), fun hmem => ?_⟩
        rw [harena, drop_left] at hmem
        exact hchars (mem_of_mem_take hmem)

/-! ## The pieces of a text -/

/-- The types of tokens that an operator can have. -/
def IsOperator (type : TokType) : Prop := ∃ o ∈ operators, o.2 = type

theorem IsOperator.ne (h : IsOperator type) : type ≠ .word ∧ type ≠ .dless ∧ type ≠ .eof := by
  have htable : ∀ o ∈ operators, o.2 ≠ .word ∧ o.2 ≠ .dless ∧ o.2 ≠ .eof := by decide
  obtain ⟨o, ho, rfl⟩ := h
  exact htable o ho

theorem find_op {text rest : Bytes} (h : find text = .piece (.op type) rest) : IsOperator type := by
  unfold find at h
  dsimp only at h
  repeat' split at h
  all_goals try exact Found.noConfusion h
  all_goals obtain ⟨hp, -⟩ := Found.piece.inj h
  · exact Piece.noConfusion hp
  · rename_i o ho
    exact ⟨o, mem_of_find?_eq_some ho, Piece.op.inj hp⟩
  · exact Piece.noConfusion hp

theorem scanFrom_ops {n : Nat} {text : Bytes} (type : TokType) (h : Piece.op type ∈ scanFrom n text) :
    IsOperator type := by
  induction n generalizing text with
  | zero => exact absurd h not_mem_nil
  | succ n ih =>
    rw [scanFrom] at h
    cases hf : find text with
    | nothing => rw [hf] at h; exact absurd h not_mem_nil
    | comment rest => rw [hf] at h; exact ih h
    | piece p rest =>
      rw [hf] at h
      rcases mem_cons.mp h with rfl | h
      · exact find_op hf
      · exact ih h

/-- `tokenize` stores what it should just if there is a token to store and all the texts fit, whenever it succeeds. -/
theorem tokens_stored_iff {text : Bytes} (hnul : (0 : UInt8) ∉ text) (maxtoks arenalen : Nat) :
    Stored maxtoks arenalen (tokenize text maxtoks arenalen) ↔
      ((tokenize text maxtoks arenalen).1 = true → 1 ≤ maxtoks ∧ storage (scan text) ≤ arenalen - 1) := by
  rw [tokenize_eq]
  have hwithin : Within maxtoks arenalen ⟨[], []⟩ := ⟨Nat.zero_le _, Nat.zero_le _⟩
  have hchars : ∀ p ∈ scan text, (0 : UInt8) ∉ p.chars := by
    intro p hp hmem
    exact forall_scanFrom (P := (· ≠ 0)) (by decide) (fun c hc h => hnul (h ▸ hc)) p hp 0 hmem rfl
  obtain ⟨harena, hfail, heof⟩ := storeAll_within hwithin (scan text)
  refine ⟨fun h hok => ⟨?_, ?_⟩, fun h => ?_⟩
  · obtain ⟨ts, -, hlt⟩ := h.eof hok
    omega
  · by_contra hfits
    obtain ⟨o, ho, hnot⟩ := storeAll_cut (Nat.zero_le _) hchars (by simpa using hfits) hok
    exact hnot ((h.laid hok).ended o ho)
  · cases hok : (storeAll maxtoks arenalen (scan text) ⟨[], []⟩).1 with
    | false =>
      have hno : ¬ (storeAll maxtoks arenalen (scan text) ⟨[], []⟩).1 = true := by rw [hok]; exact Bool.false_ne_true
      exact ⟨(hfail hok).trans (Nat.sub_le _ _), harena.trans (Nat.sub_le _ _), fun h => absurd h hno,
        fun h => absurd h hno, fun h => absurd h hno⟩
    | true =>
      obtain ⟨hmax, hfits⟩ := h hok
      obtain ⟨ts, hts, hle⟩ := heof hok
      refine ⟨?_, harena.trans (Nat.sub_le _ _), fun _ => ⟨ts, hts, by omega⟩, fun _ => ?_, fun _ => ?_⟩
      · rw [hts, length_append, length_singleton]
        omega
      · exact storeAll_words (forall_mem_nil _) (fun type h => (scanFrom_ops type h).ne.1) hok
      · exact storeAll_laid ⟨forall_mem_nil _, List.Pairwise.nil⟩ (by simpa using hfits) hok

theorem tokens_stored_words : Stored 8 9 (tokenize (ascii "a | bc") 8 9) :=
  (tokens_stored_iff (by decide) 8 9).mpr (by decide)

/-- A body of three bytes in an arena of four has no NUL. -/
theorem heredoc_without_nul : ¬ Stored 8 4 (tokenize (ascii "<<E\nab\nE\n") 8 4) := by
  intro h
  have hmem := (h.laid (by decide)).ended 0 (by decide)
  revert hmem
  decide

end Lorica.Proof.Stsh

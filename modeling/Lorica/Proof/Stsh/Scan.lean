import Lorica.Impl.Stsh.Lexer

/-!
# What stsh reads in a text, and where it is stored

`tokenize` reads a text and stores what it finds at the same time. Here the two are taken apart:
`scan` says which pieces a text consists of, with no limits, and `storeAll` puts pieces into the
array of tokens and the arena, as far as they fit. `tokenize_eq` is that `tokenize` is the one
after the other.
-/

namespace Lorica.Proof.Stsh

open Lorica.Impl.Stsh List

/-- A piece of a text for which there are tokens. -/
inductive Piece
  | op (type : TokType)
  | word (text : Bytes)
  | heredoc (body : Bytes)
deriving DecidableEq

/-- The word at the front of a text, within a loop of `lex_word`, and the rest. -/
def spanWord : Loop → Bytes → Bytes × Bytes
  | _, [] => ([], [])
  | l, c :: p =>
    if l = .plain ∧ endsWord c then ([], c :: p)
    else
      let r := spanWord (l.next c p) p
      (c :: r.1, r.2)

/-- The body of a here-document at the front of a text, and the rest behind its delimiter. -/
def spanBody (strip : Bool) (delim : Bytes) : Bytes → Bytes → Bytes × Bytes
  | line, [] =>
    if line = [] ∨ stripLine strip line = delim then ([], []) else (stripLine strip line ++ [newline], [])
  | line, c :: p =>
    if c = newline then
      if stripLine strip line = delim then ([], p)
      else
        let r := spanBody strip delim [] p
        (stripLine strip line ++ newline :: r.1, r.2)
    else spanBody strip delim (line ++ [c]) p

/-- What stands at the front of a text behind blanks: nothing more, a comment, or a piece. -/
inductive Found
  | nothing
  | comment (rest : Bytes)
  | piece (p : Piece) (rest : Bytes)

def find (text : Bytes) : Found :=
  let p := skipBlanks text
  if p = [] then .nothing
  else if p.head? = some (byte '#') then .comment (p.dropWhile (· ≠ newline))
  else if (ascii "<<").isPrefixOf p then
    let o := heredocOpening (p.drop 2)
    let r := spanBody o.strip o.delim [] (nextLine o.rest)
    .piece (.heredoc r.1) r.2
  else
    match operatorAt p with
    | some o => .piece (.op o.2) (p.drop o.1.length)
    | none =>
      let r := spanWord .plain p
      .piece (.word r.1) r.2

def scanFrom : Nat → Bytes → List Piece
  | 0, _ => []
  | n + 1, text =>
    match find text with
    | .nothing => []
    | .comment rest => scanFrom n rest
    | .piece p rest => p :: scanFrom n rest

/-- The pieces of a text. -/
def scan (text : Bytes) : List Piece := scanFrom (text.length + 1) text

/-- A piece is stored: the state, and whether `tokenize` goes on. -/
def store (maxtoks arenalen : Nat) (s : Lex) : Piece → Bool × Lex
  | .op type => if maxtoks - 1 ≤ s.toks.length then (false, s) else (true, s.push type)
  | .word w =>
    if maxtoks - 1 ≤ s.toks.length then (false, s)
    else
      let arena := (w ++ [0]).foldl (put arenalen) s.arena
      (decide (arena.length < arenalen - 1), ⟨s.toks ++ [⟨.word, some s.arena.length⟩], arena⟩)
  | .heredoc body =>
    if maxtoks - 1 ≤ s.toks.length then (false, s)
    else
      let arena := (body ++ [0]).foldl (put arenalen) s.arena
      if maxtoks - 2 ≤ s.toks.length + 1 then (false, ⟨s.toks ++ [⟨.dless, none⟩], arena⟩)
      else (true, ⟨s.toks ++ [⟨.dless, none⟩, ⟨.word, some s.arena.length⟩, ⟨.newline, none⟩], arena⟩)

def storeAll (maxtoks arenalen : Nat) : List Piece → Lex → Bool × Lex
  | [], s => (true, s.push .eof)
  | p :: ps, s =>
    let r := store maxtoks arenalen s p
    if r.1 then storeAll maxtoks arenalen ps r.2 else r

variable {maxtoks arenalen cap : Nat} {arena delim : Bytes} {s : Lex}

/-! ## Reading without storing -/

theorem lexFrom_eq (l : Loop) (p : Bytes) :
    lexFrom cap l p arena = ((spanWord l p).2, (spanWord l p).1.foldl (put cap) arena) := by
  induction p generalizing l arena with
  | nil => cases l <;> rfl
  | cons c p ih =>
    rw [lexFrom, spanWord]
    split
    · rfl
    · exact ih _

theorem lexWord_eq (p : Bytes) : lexWord cap p arena =
    ((spanWord .plain p).2, ((spanWord .plain p).1 ++ [0]).foldl (put cap) arena) := by
  rw [lexWord, lexFrom_eq, foldl_append]
  rfl

theorem heredocBody_eq (strip : Bool) (line p : Bytes) : heredocBody cap strip delim line p arena =
    ((spanBody strip delim line p).2, (spanBody strip delim line p).1.foldl (put cap) arena) := by
  induction p generalizing line arena with
  | nil =>
    rw [heredocBody, spanBody]
    split <;> rfl
  | cons c p ih =>
    rw [heredocBody, spanBody]
    split
    · split
      · rfl
      · rw [ih]
        simp [foldl_append]
    · exact ih _

/-- What of a text has been put into the arena: as much as fits. -/
theorem foldl_put_eq (cs : Bytes) : cs.foldl (put cap) arena = arena ++ cs.take (cap - 1 - arena.length) := by
  induction cs generalizing arena with
  | nil => simp
  | cons c cs ih =>
    rw [foldl_cons, put]
    split
    · obtain ⟨k, hk⟩ : ∃ k, cap - 1 - arena.length = k + 1 := ⟨cap - 1 - arena.length - 1, by omega⟩
      have hk' : cap - 1 - (arena ++ [c]).length = k := by simp; omega
      rw [ih, hk, hk', append_assoc]
      rfl
    · have hzero : cap - 1 - arena.length = 0 := by omega
      rw [ih, hzero, take_zero, take_zero]

/-! ## Every round reads something -/

theorem length_spanWord (l : Loop) (p : Bytes) : (spanWord l p).1.length + (spanWord l p).2.length = p.length := by
  induction p generalizing l with
  | nil => cases l <;> rfl
  | cons c p ih =>
    rw [spanWord]
    split
    · simp
    · have := ih (l.next c p)
      simp only [length_cons]
      omega

theorem length_spanBody_le (strip : Bool) (delim line p : Bytes) :
    (spanBody strip delim line p).2.length ≤ p.length := by
  induction p generalizing line with
  | nil =>
    rw [spanBody]
    split <;> exact Nat.le_refl 0
  | cons c p ih =>
    rw [spanBody]
    split
    · split
      · exact Nat.le_succ _
      · exact (ih []).trans (Nat.le_succ _)
    · exact (ih _).trans (Nat.le_succ _)

theorem length_skipBlanks_le (p : Bytes) : (skipBlanks p).length ≤ p.length := length_dropWhile_le _ _

theorem heredocDelim_suffix (quote : Option UInt8) (n : Nat) (p : Bytes) : (heredocDelim quote n p).2 <:+ p := by
  induction p generalizing n with
  | nil => cases n <;> exact suffix_refl _
  | cons c p ih =>
    cases n with
    | zero => exact suffix_refl _
    | succ n =>
      rw [heredocDelim]
      split
      · exact suffix_cons _ _
      · split
        · exact suffix_refl _
        · exact (ih n).trans (suffix_cons _ _)

theorem heredocOpening_suffix (p : Bytes) : (heredocOpening p).rest <:+ p := by
  have hdrop : ∀ (b : Bool) (q : Bytes), (if b then q.drop 1 else q) <:+ q := by
    intro b q
    split
    · exact drop_suffix _ _
    · exact suffix_refl _
  have hdash := hdrop (p.head? = some (byte '-')) p
  refine (heredocDelim_suffix _ _ _).trans ((hdrop _ _).trans ((dropWhile_suffix _).trans ?_))
  simpa using hdash

theorem nextLine_suffix (p : Bytes) : nextLine p <:+ p := (drop_suffix _ _).trans (dropWhile_suffix _)

theorem operators_ne_nil : ∀ o ∈ operators, o.1 ≠ [] := by
  decide

/-- Each character that ends a word, blanks apart, is an operator. -/
theorem operatorAt_of_endsWord {c : UInt8} {p : Bytes} (h : endsWord c = true) (hs : c ≠ space) (ht : c ≠ tab) :
    operatorAt (c :: p) ≠ none := by
  have hone : ∀ d ∈ newline :: ascii "|&;<>()", ∃ o ∈ operators, o.1 = [d] := by decide +kernel
  have hmem : c ∈ newline :: ascii "|&;<>()" := by
    simp only [endsWord, isBlank, Bool.or_eq_true, decide_eq_true_eq, contains_iff_mem] at h
    rw [mem_cons]
    exact h.imp_left fun h => h.resolve_left (not_or.mpr ⟨hs, ht⟩)
  obtain ⟨o, ho, hc⟩ := hone c hmem
  intro hnone
  have hnot := find?_eq_none.mp hnone o ho
  rw [hc] at hnot
  exact hnot (by simp)

theorem head_skipBlanks {text p : Bytes} {c : UInt8} (h : skipBlanks text = c :: p) : c ≠ space ∧ c ≠ tab := by
  have hhead := head?_dropWhile_not (fun c => decide (c = space) || decide (c = tab)) text
  rw [show text.dropWhile (fun c => decide (c = space) || decide (c = tab)) = c :: p from h] at hhead
  simpa using hhead

/-- What is found leaves less of the text. -/
theorem length_find_lt {text rest : Bytes} (h : find text = .comment rest ∨ ∃ p, find text = .piece p rest) :
    rest.length < text.length := by
  have hskip := length_skipBlanks_le text
  unfold find at h
  cases hp : skipBlanks text with
  | nil => simp [hp] at h
  | cons c p =>
    rw [hp, length_cons] at hskip
    obtain ⟨hs, ht⟩ := head_skipBlanks hp
    simp only [hp, cons_ne_nil, if_false] at h
    split at h
    · rename_i hc
      obtain rfl : c = byte '#' := Option.some.inj hc
      simp only [Found.comment.injEq, reduceCtorEq, exists_false, or_false] at h
      rw [← h, dropWhile_cons_of_pos (by decide)]
      exact Nat.lt_of_le_of_lt (length_dropWhile_le _ _) hskip
    · split at h
      · simp only [Found.piece.injEq, reduceCtorEq, false_or, exists_and_right, exists_eq', true_and] at h
        rw [← h, drop_succ_cons]
        have hopen := (heredocOpening_suffix (p.drop 1)).length_le
        have hbody := length_spanBody_le (heredocOpening (p.drop 1)).strip (heredocOpening (p.drop 1)).delim []
          (nextLine (heredocOpening (p.drop 1)).rest)
        have hline := (nextLine_suffix (heredocOpening (p.drop 1)).rest).length_le
        rw [length_drop] at hopen
        omega
      · split at h
        · rename_i o ho
          simp only [Found.piece.injEq, reduceCtorEq, false_or, exists_and_right, exists_eq', true_and] at h
          have hpos := length_pos_of_ne_nil (operators_ne_nil o (mem_of_find?_eq_some ho))
          rw [← h, length_drop, length_cons]
          omega
        · rename_i hnone
          simp only [Found.piece.injEq, reduceCtorEq, false_or, exists_and_right, exists_eq', true_and] at h
          have hword : endsWord c = false := by
            rw [← Bool.not_eq_true]
            exact fun hc => operatorAt_of_endsWord hc hs ht hnone
          have hspan := length_spanWord (Loop.plain.next c p) p
          rw [spanWord, if_neg (by simp [hword])] at h
          rw [← h]
          show (spanWord (Loop.plain.next c p) p).2.length < _
          omega

/-! ## The characters of the pieces -/

def Piece.chars : Piece → Bytes
  | .op _ => []
  | .word w => w
  | .heredoc body => body

section

variable {P : UInt8 → Prop}

theorem forall_spanWord (l : Loop) {p : Bytes} (h : ∀ c ∈ p, P c) :
    (∀ c ∈ (spanWord l p).1, P c) ∧ ∀ c ∈ (spanWord l p).2, P c := by
  induction p generalizing l with
  | nil => exact ⟨h, h⟩
  | cons c p ih =>
    obtain ⟨hc, hp⟩ := forall_mem_cons.mp h
    rw [spanWord]
    split
    · exact ⟨forall_mem_nil _, h⟩
    · exact ⟨forall_mem_cons.mpr ⟨hc, (ih _ hp).1⟩, (ih _ hp).2⟩

theorem forall_stripLine (strip : Bool) {line : Bytes} (h : ∀ c ∈ line, P c) : ∀ c ∈ stripLine strip line, P c := by
  intro c hc
  cases strip with
  | false => exact h c hc
  | true => exact h c ((dropWhile_suffix _).subset hc)

theorem forall_spanBody (hnl : P newline) (strip : Bool) {line p : Bytes} (hline : ∀ c ∈ line, P c) (h : ∀ c ∈ p, P c) :
    (∀ c ∈ (spanBody strip delim line p).1, P c) ∧ ∀ c ∈ (spanBody strip delim line p).2, P c := by
  have hstrip := forall_stripLine strip hline
  induction p generalizing line with
  | nil =>
    rw [spanBody]
    split
    · exact ⟨h, h⟩
    · exact ⟨forall_mem_append.mpr ⟨hstrip, forall_mem_singleton.mpr hnl⟩, h⟩
  | cons c p ih =>
    obtain ⟨hc, hp⟩ := forall_mem_cons.mp h
    rw [spanBody]
    split
    · split
      · exact ⟨forall_mem_nil _, hp⟩
      · have hrest := ih (forall_mem_nil _) hp (forall_stripLine strip (forall_mem_nil _))
        exact ⟨forall_mem_append.mpr ⟨hstrip, forall_mem_cons.mpr ⟨hnl, hrest.1⟩⟩, hrest.2⟩
    · have hline' : ∀ d ∈ line ++ [c], P d := forall_mem_append.mpr ⟨hline, forall_mem_singleton.mpr hc⟩
      exact ih hline' hp (forall_stripLine strip hline')

theorem forall_find (hnl : P newline) {text rest : Bytes} (h : ∀ c ∈ text, P c) :
    (find text = .comment rest → ∀ c ∈ rest, P c) ∧
      ∀ p, find text = .piece p rest → (∀ c ∈ p.chars, P c) ∧ ∀ c ∈ rest, P c := by
  have hskip : ∀ c ∈ skipBlanks text, P c := fun c hc => h c ((dropWhile_suffix _).subset hc)
  unfold find
  dsimp only
  split
  · simp
  · split
    · refine ⟨fun heq c hc => ?_, by simp⟩
      rw [← Found.comment.inj heq] at hc
      exact hskip c ((dropWhile_suffix _).subset hc)
    · split
      · refine ⟨by simp, fun p heq => ?_⟩
        obtain ⟨rfl, rfl⟩ := Found.piece.inj heq
        refine forall_spanBody hnl _ (forall_mem_nil _) fun c hc => hskip c ?_
        exact (((nextLine_suffix _).trans (heredocOpening_suffix _)).trans (drop_suffix _ _)).subset hc
      · split
        · refine ⟨by simp, fun p heq => ?_⟩
          obtain ⟨rfl, rfl⟩ := Found.piece.inj heq
          exact ⟨forall_mem_nil _, fun c hc => hskip c ((drop_suffix _ _).subset hc)⟩
        · refine ⟨by simp, fun p heq => ?_⟩
          obtain ⟨rfl, rfl⟩ := Found.piece.inj heq
          exact forall_spanWord _ hskip

/-- The characters of a piece are from the text, newlines that end a body apart. -/
theorem forall_scanFrom (hnl : P newline) {n : Nat} {text : Bytes} (h : ∀ c ∈ text, P c) :
    ∀ p ∈ scanFrom n text, ∀ c ∈ p.chars, P c := by
  induction n generalizing text with
  | zero => exact forall_mem_nil _
  | succ n ih =>
    rw [scanFrom]
    cases hf : find text with
    | nothing => exact forall_mem_nil _
    | comment rest => exact ih ((forall_find hnl h).1 hf)
    | piece p rest =>
      obtain ⟨hp, hrest⟩ := (forall_find hnl h).2 p hf
      exact forall_mem_cons.mpr ⟨hp, ih hrest⟩

end

/-- What a round does with what it finds. -/
def Found.stored (maxtoks arenalen : Nat) (s : Lex) : Found → Round
  | .nothing => .done (s.push .eof)
  | .comment rest => .next rest s
  | .piece p rest =>
    if (store maxtoks arenalen s p).1 then .next rest (store maxtoks arenalen s p).2
    else .fail (store maxtoks arenalen s p).2

theorem heredocRound_eq (p : Bytes) (s : Lex) : heredocRound maxtoks arenalen p s = Found.stored maxtoks arenalen s
      (.piece (.heredoc (spanBody (heredocOpening (p.drop 2)).strip (heredocOpening (p.drop 2)).delim []
        (nextLine (heredocOpening (p.drop 2)).rest)).1)
        (spanBody (heredocOpening (p.drop 2)).strip (heredocOpening (p.drop 2)).delim []
          (nextLine (heredocOpening (p.drop 2)).rest)).2) := by
  unfold heredocRound Found.stored store
  simp only [heredocBody_eq, foldl_append]
  split
  · rfl
  · simp only [Lex.push, length_append, length_singleton, append_assoc]
    split <;> rfl

theorem wordRound_eq (p : Bytes) (s : Lex) : wordRound maxtoks arenalen p s =
    Found.stored maxtoks arenalen s (.piece (.word (spanWord .plain p).1) (spanWord .plain p).2) := by
  unfold wordRound Found.stored store
  simp only [lexWord_eq]
  split
  · rfl
  · simp only [decide_eq_true_eq]
    split
    · rename_i hfull
      rw [if_neg (Nat.not_lt_of_le hfull)]
    · rename_i hroom
      rw [if_pos (Nat.lt_of_not_le hroom)]

theorem lexRound_eq (text : Bytes) (s : Lex) :
    lexRound maxtoks arenalen text s = (find text).stored maxtoks arenalen s := by
  unfold lexRound find
  simp only [heredocRound_eq, wordRound_eq]
  split
  · rfl
  · split
    · rfl
    · split
      · rfl
      · cases operatorAt (skipBlanks text) with
        | none => rfl
        | some o =>
          show (if _ then _ else _) = Found.stored maxtoks arenalen s (.piece (.op o.2) _)
          unfold Found.stored store
          split <;> rfl

theorem tokenizeFrom_eq {n : Nat} {text : Bytes} (hn : text.length < n) (s : Lex) :
    tokenizeFrom maxtoks arenalen n text s = storeAll maxtoks arenalen (scanFrom n text) s := by
  induction n generalizing text s with
  | zero => exact absurd hn (Nat.not_lt_zero _)
  | succ n ih =>
    rw [tokenizeFrom, lexRound_eq, scanFrom]
    cases hf : find text with
    | nothing => rfl
    | comment rest =>
      have hlt := length_find_lt (.inl hf)
      exact ih (by omega) s
    | piece p rest =>
      have hlt := length_find_lt (.inr ⟨p, hf⟩)
      cases hok : (store maxtoks arenalen s p).1 with
      | true =>
        simp only [Found.stored, storeAll, hok]
        exact ih (by omega) _
      | false =>
        simp only [Found.stored, storeAll, hok]
        exact Prod.ext hok.symm rfl

/-- `tokenize` stores the pieces of the text. -/
theorem tokenize_eq (text : Bytes) :
    tokenize text maxtoks arenalen = storeAll maxtoks arenalen (scan text) ⟨[], []⟩ :=
  tokenizeFrom_eq (Nat.lt_succ_self _) _

end Lorica.Proof.Stsh

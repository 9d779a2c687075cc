import Lorica.Framework.Path

/-!
# Byte streams that are read in pieces

The reader of a stream socket asks for a number of bytes and is given some of them. `Conn` has
the bytes that were sent and not read, and the answers that the coming reads will get: some
bytes, or none because the call was interrupted or would wait. Where the answers end, the reader
waits (`Halt.waiting`).

`readFull` reads again until it has all it wants, `drain` throws bytes away and takes no
interruption. What answers they use depends on the numbers of bytes alone (`left`, `drained`), so
that both take exactly the bytes they were asked for, however the stream is cut
(`readFull_eq`, `drain_eq`).
-/

namespace Lorica.Stream

open List

/-- The answer to one read. -/
inductive Answer
  /-- as many bytes as were asked for and are there, `k + 1` at most -/
  | data (k : Nat)
  /-- the call was interrupted, or would wait -/
  | again
deriving DecidableEq

structure Conn where
  avail : Bytes
  answers : List Answer
deriving DecidableEq

/-- Why a reader has no result. -/
inductive Halt
  | failed
  | waiting
deriving DecidableEq

/-- Programs that read a connection. -/
abbrev Recv := StateT Conn (Except Halt)

/-- The loop that reads `n` bytes, `got` being read; an interrupted call is made again. -/
def readLoop (n : Nat) (got avail : Bytes) : List Answer → Except Halt (Bytes × Conn)
  | [] => if n ≤ got.length then .ok (got, ⟨avail, []⟩) else .error .waiting
  | .again :: as =>
    if n ≤ got.length then .ok (got, ⟨avail, .again :: as⟩) else readLoop n got avail as
  | .data k :: as =>
    if n ≤ got.length then .ok (got, ⟨avail, .data k :: as⟩)
    -- without bytes a read would wait
    else if avail = [] then readLoop n got avail as
    else
      let m := min (k + 1) (n - got.length)
      readLoop n (got ++ avail.take m) (avail.drop m) as

def readFull (n : Nat) : Recv Bytes := fun c => readLoop n [] c.avail c.answers

/-- The loop that throws `n` bytes away, `size` at most in each read; an interruption is an
error. -/
def drainLoop (size n : Nat) (avail : Bytes) : List Answer → Except Halt (Unit × Conn)
  | [] => if n = 0 then .ok ((), ⟨avail, []⟩) else .error .waiting
  | .again :: as => if n = 0 then .ok ((), ⟨avail, .again :: as⟩) else .error .failed
  | .data k :: as =>
    if n = 0 then .ok ((), ⟨avail, .data k :: as⟩)
    else if avail = [] then .error .failed
    else
      let m := min (min (k + 1) (min size n)) avail.length
      drainLoop size (n - m) (avail.drop m) as

def drain (size n : Nat) : Recv Unit := fun c => drainLoop size n c.avail c.answers

/-! ## The answers that reads use -/

/-- The answers left when `n` bytes are read by `readFull`. -/
def left : Nat → List Answer → Except Halt (List Answer)
  | 0, as => .ok as
  | _ + 1, [] => .error .waiting
  | n + 1, .again :: as => left (n + 1) as
  | n + 1, .data k :: as => left (n + 1 - min (k + 1) (n + 1)) as

/-- The answers left when `n` bytes are thrown away by `drain`. -/
def drained (size : Nat) : Nat → List Answer → Except Halt (List Answer)
  | 0, as => .ok as
  | _ + 1, [] => .error .waiting
  | _ + 1, .again :: _ => .error .failed
  | n + 1, .data k :: as => drained size (n + 1 - min (k + 1) (min size (n + 1))) as

/-- The reads that give bytes. -/
def dataCount (as : List Answer) : Nat := as.countP (· ≠ .again)

theorem left_nil_of_pos {n : Nat} (h : n ≠ 0) : left n [] = .error .waiting := by
  obtain ⟨n, rfl⟩ := Nat.exists_eq_succ_of_ne_zero h
  rfl

theorem left_again {n : Nat} (h : n ≠ 0) (as : List Answer) : left n (.again :: as) = left n as := by
  obtain ⟨n, rfl⟩ := Nat.exists_eq_succ_of_ne_zero h
  rfl

theorem left_data {n : Nat} (h : n ≠ 0) (k : Nat) (as : List Answer) :
    left n (.data k :: as) = left (n - min (k + 1) n) as := by
  obtain ⟨n, rfl⟩ := Nat.exists_eq_succ_of_ne_zero h
  rfl

theorem drained_data {size n : Nat} (h : n ≠ 0) (k : Nat) (as : List Answer) :
    drained size n (.data k :: as) = drained size (n - min (k + 1) (min size n)) as := by
  obtain ⟨n, rfl⟩ := Nat.exists_eq_succ_of_ne_zero h
  rfl

/-- `readFull` takes the bytes it was asked for, and no others. -/
theorem readLoop_eq {n : Nat} (as : List Answer) {got x : Bytes} (rest : Bytes) (hn : got.length + x.length = n) :
    readLoop n got (x ++ rest) as = (left x.length as).map fun as' => (got ++ x, ⟨rest, as'⟩) := by
  induction as generalizing got x with
  | nil =>
    by_cases hx : x = []
    · subst hx
      simp only [length_nil, Nat.add_zero] at hn
      simp [readLoop, hn, left, Except.map]
    · have hl : x.length ≠ 0 := by simpa using hx
      rw [readLoop, if_neg (by omega), left_nil_of_pos hl]
      rfl
  | cons a as ih =>
    by_cases hx : x = []
    · subst hx
      simp only [length_nil, Nat.add_zero] at hn
      cases a <;> simp [readLoop, hn, left, Except.map]
    have hl : x.length ≠ 0 := by simpa using hx
    cases a with
    | again =>
      rw [readLoop, if_neg (by omega), left_again hl]
      exact ih hn
    | data k =>
      have hne : x ++ rest ≠ [] := by simp [hx]
      have hm : min (k + 1) (n - got.length) = min (k + 1) x.length := by omega
      rw [readLoop, if_neg (by omega), if_neg hne]
      dsimp only
      rw [hm, left_data hl, take_append_of_le_length (min_le_right _ _),
        drop_append_of_le_length (min_le_right _ _), ih (by simp; omega)]
      rw [append_assoc, take_append_drop, length_drop]

theorem readFull_eq (x rest : Bytes) (as : List Answer) :
    readFull x.length ⟨x ++ rest, as⟩ = (left x.length as).map fun as' => (x, ⟨rest, as'⟩) := by
  have h := readLoop_eq as rest (show ([] : Bytes).length + x.length = x.length by simp)
  exact h

/-- What a read that ended has taken, whatever is there. -/
theorem readLoop_ok {n : Nat} {as : List Answer} {got avail bs : Bytes} {c : Conn} (hg : got.length ≤ n)
    (h : readLoop n got avail as = .ok (bs, c)) : c.avail.length + n = avail.length + got.length := by
  induction as generalizing got avail with
  | nil =>
    rw [readLoop] at h
    split at h
    · cases h; dsimp only; omega
    · cases h
  | cons a as ih =>
    cases a with
    | again =>
      rw [readLoop] at h
      split at h
      · cases h; dsimp only; omega
      · exact ih hg h
    | data k =>
      rw [readLoop] at h
      split at h
      · cases h; dsimp only; omega
      split at h
      · exact ih hg h
      · have := ih (by simp; omega) h
        simp only [length_append, length_take, length_drop] at this
        omega

theorem readFull_ok {n : Nat} {c c' : Conn} {bs : Bytes} (h : readFull n c = .ok (bs, c')) :
    c'.avail.length + n = c.avail.length := by
  simpa using readLoop_ok (Nat.zero_le n) h

/-- `drain` takes the bytes it was asked for, and no others. -/
theorem drainLoop_eq {size : Nat} (as : List Answer) (x rest : Bytes) :
    drainLoop size x.length (x ++ rest) as = (drained size x.length as).map fun as' => ((), ⟨rest, as'⟩) := by
  induction as generalizing x with
  | nil =>
    cases x with
    | nil => rfl
    | cons b x => rfl
  | cons a as ih =>
    by_cases hx : x = []
    · subst hx
      cases a <;> rfl
    have hl : x.length ≠ 0 := by simpa using hx
    cases a with
    | again =>
      cases x with
      | nil => exact absurd rfl hx
      | cons b x => rfl
    | data k =>
      have hne : x ++ rest ≠ [] := by simp [hx]
      have hm : min (min (k + 1) (min size x.length)) (x ++ rest).length = min (k + 1) (min size x.length) := by
        simp only [length_append]; omega
      have hle : min (k + 1) (min size x.length) ≤ x.length := by omega
      rw [drainLoop, if_neg hl, if_neg hne, drained_data hl]
      dsimp only
      rw [hm, drop_append_of_le_length hle]
      have := ih (x.drop (min (k + 1) (min size x.length)))
      rwa [length_drop] at this

theorem drain_eq (size : Nat) (x rest : Bytes) (as : List Answer) :
    drain size x.length ⟨x ++ rest, as⟩ = (drained size x.length as).map fun as' => ((), ⟨rest, as'⟩) :=
  drainLoop_eq as x rest

/-! ## Readers that take exactly their bytes -/

/-- The reader takes the bytes `x` and gives `a`, and uses the answers as `g` says. -/
def Takes {α : Type} (p : Recv α) (x : Bytes) (g : List Answer → Except Halt (List Answer)) (a : α) : Prop :=
  ∀ rest as, p ⟨x ++ rest, as⟩ = (g as).map fun as' => (a, ⟨rest, as'⟩)

section

variable {α β : Type} {p : Recv α} {f : α → Recv β} {x y : Bytes} {g h : List Answer → Except Halt (List Answer)}
  {a : α} {b : β}

theorem Takes.pure (a : α) : Takes (Pure.pure a) [] Except.ok a := fun _ _ => rfl

theorem Takes.bind (hp : Takes p x g a) (hf : Takes (f a) y h b) :
    Takes (p >>= f) (x ++ y) (fun as => g as >>= h) b := by
  intro rest as
  show (p ⟨x ++ y ++ rest, as⟩ >>= fun r => f r.1 r.2) = (g as >>= h).map fun as' => (b, ⟨rest, as'⟩)
  rw [append_assoc, hp]
  cases hg : g as with
  | error e => rfl
  | ok as' => exact hf rest as'

/-- The last step of a reader, which reads nothing. -/
theorem Takes.map (hp : Takes p x g a) (v : α → β) : Takes (p >>= fun r => Pure.pure (v r)) x g (v a) := by
  intro rest as
  show (p ⟨x ++ rest, as⟩ >>= fun r => Pure.pure (v r.1, r.2)) = _
  rw [hp]
  cases hg : g as with
  | error e => rfl
  | ok as' => rfl

theorem readFull_takes (x : Bytes) : Takes (readFull x.length) x (left x.length) x :=
    fun rest as => readFull_eq x rest as

theorem drain_takes (size : Nat) (x : Bytes) : Takes (drain size x.length) x (drained size x.length) () :=
  fun rest as => drain_eq size x rest as

end

/-! ## Enough answers -/

@[simp] theorem dataCount_nil : dataCount [] = 0 := rfl

@[simp] theorem dataCount_again (as : List Answer) : dataCount (.again :: as) = dataCount as := by
  simp [dataCount]

@[simp] theorem dataCount_data (k : Nat) (as : List Answer) : dataCount (.data k :: as) = dataCount as + 1 := by
  simp [dataCount]

/-- A byte takes one answer at most, interruptions apart. -/
theorem left_enough {n : Nat} {as : List Answer} (h : n ≤ dataCount as) :
    ∃ as', left n as = .ok as' ∧ dataCount as ≤ dataCount as' + n := by
  induction as generalizing n with
  | nil =>
    obtain rfl : n = 0 := by simpa using h
    exact ⟨[], rfl, by simp⟩
  | cons a as ih =>
    by_cases hn : n = 0
    · subst hn
      exact ⟨_, rfl, by simp⟩
    cases a with
    | again =>
      rw [left_again hn]
      simpa using ih (by simpa using h)
    | data k =>
      simp only [dataCount_data] at h ⊢
      rw [left_data hn]
      obtain ⟨as', hl, hc⟩ := ih (n := n - min (k + 1) n) (by omega)
      exact ⟨as', hl, by omega⟩

theorem drained_enough {size n : Nat} (hs : 0 < size) {as : List Answer} (h : n ≤ dataCount as) :
    drained size n as = .error .failed ∨ ∃ as', drained size n as = .ok as' ∧ dataCount as ≤ dataCount as' + n := by
  induction as generalizing n with
  | nil =>
    obtain rfl : n = 0 := by simpa using h
    exact .inr ⟨[], rfl, by simp⟩
  | cons a as ih =>
    by_cases hn : n = 0
    · subst hn
      exact .inr ⟨_, rfl, by simp⟩
    cases a with
    | again =>
      obtain ⟨n, rfl⟩ := Nat.exists_eq_succ_of_ne_zero hn
      exact .inl rfl
    | data k =>
      simp only [dataCount_data] at h ⊢
      rw [drained_data hn]
      rcases ih (n := n - min (k + 1) (min size n)) (by omega) with hf | ⟨as', hl, hc⟩
      · exact .inl hf
      · exact .inr ⟨as', hl, by omega⟩

end Lorica.Stream

import Lorica.Framework.Fallible

/-!
# Programs that note what they rely on

A program in C has to see to it that an index is within its array, that a number fits its word,
and that a loop comes to an end. A noted program is one over the operations of `M` and over
notes of such requirements (`Machine.noted`), which do nothing; `Prog.erase` takes the notes
out and leaves a program over `M`.

`Prog.Always P p Q` says that whatever the operations answer, each is in `P` and the result is in
`Q`. For a noted program, `Noting P` is the predicate that lets it make operations in `P`, and notes
only of requirements that hold.
-/

namespace Lorica

variable {M : Machine} {ε α β σ : Type}

/-- A requirement. -/
inductive Note
  /-- The element `i` of an array of `size` elements. -/
  | index (i size : Nat)
  /-- A number that is kept in a word of `bits` bits. -/
  | word (v bits : Nat)
  /-- A difference `a - b` of numbers without a sign. -/
  | diff (a b : Nat)
  /-- A loop that has come to its end within the rounds that the model gives it. -/
  | ended
deriving DecidableEq

/-- The requirement holds. There is a note `ended` only where the rounds are used up. -/
def Note.Holds : Note → Prop
  | .index i size => i < size
  | .word v bits => v < 2 ^ bits
  | .diff a b => b ≤ a
  | .ended => False

/-- The machine with notes. -/
abbrev Machine.noted (M : Machine) : Machine where
  State := M.State
  Op := M.Op ⊕ Note
  Ret := Sum.elim M.Ret fun _ => Unit
  Choice := M.Choice
  step
    | .inl o, c, s => M.step o c s
    | .inr _, _, s => ((), s)
  tear
    | .inl o, k, s => M.tear o k s
    | .inr _, _, s => s

namespace Prog

/-- The program without its notes. -/
def erase : Prog M.noted α → Prog M α
  | .pure a => .pure a
  | .op (.inl o) k => .op o fun r => (k r).erase
  | .op (.inr _) k => (k ()).erase

theorem erase_bind (p : Prog M.noted α) (f : α → Prog M.noted β) :
    (p >>= f).erase = p.erase >>= fun a => (f a).erase := by
  induction p with
  | pure a => rfl
  | op o k ih =>
    cases o with
    | inl o => exact congrArg (Prog.op o) (funext ih)
    | inr n => exact ih ()

/-- Whatever the operations answer, each is in `P`, and the result is in `Q`. -/
def Always (P : M.Op → Prop) : Prog M α → (α → Prop) → Prop
  | .pure a, Q => Q a
  | .op o k, Q => P o ∧ ∀ r, (k r).Always P Q

variable {P : M.Op → Prop} {p : Prog M α} {Q : α → Prop}

theorem always_bind {f : α → Prog M β} {Q : β → Prop} :
    (p >>= f).Always P Q ↔ p.Always P fun a => (f a).Always P Q := by
  induction p with
  | pure a => exact Iff.rfl
  | op o k ih => exact and_congr Iff.rfl (forall_congr' ih)

theorem Always.mono {Q' : α → Prop} (h : p.Always P Q) (hQ : ∀ a, Q a → Q' a) : p.Always P Q' := by
  induction p with
  | pure a => exact hQ a h
  | op o k ih => exact ⟨h.1, fun r => ih r (h.2 r)⟩

theorem always_congr {Q' : α → Prop} (h : ∀ a, Q a ↔ Q' a) :
    p.Always P Q ↔ p.Always P Q' := ⟨fun hp => hp.mono fun a => (h a).mp, fun hp => hp.mono fun a => (h a).mpr⟩

/-- With some answers of the operations, the result is `a`. -/
def Returns : Prog M α → α → Prop
  | .pure b, a => b = a
  | .op _ k, a => ∃ r, (k r).Returns a

theorem Returns.bind {f : α → Prog M β} {a : α} {b : β} (h : p.Returns a) (hf : (f a).Returns b) :
    (p >>= f).Returns b := by
  induction p with
  | pure a' =>
    obtain rfl : a' = a := h
    exact hf
  | op o k ih =>
    obtain ⟨r, h⟩ := h
    exact ⟨r, ih r h⟩

/-- What holds of every result holds of a possible one. -/
theorem Always.returns {a : α} (h : p.Always P Q) (ha : p.Returns a) : Q a := by
  induction p with
  | pure a' =>
    obtain rfl : a' = a := ha
    exact h
  | op o k ih =>
    obtain ⟨r, ha⟩ := ha
    exact ih r (h.2 r) ha

/-- Operations in `P`, and notes of requirements that hold. -/
def Noting (P : M.Op → Prop) : M.noted.Op → Prop := Sum.elim P Note.Holds

end Prog

namespace Try

/-- The note of a requirement. -/
def note (n : Note) : Try M.noted ε Unit := lift (Prog.call (M := M.noted) (.inr n))

/-- An operation of the machine without notes. -/
def dev (o : M.Op) : Try M.noted ε (M.Ret o) := lift (Prog.call (M := M.noted) (.inl o))

def erase (p : Try M.noted ε α) : Try M ε α := ExceptT.mk p.run.erase

@[simp] theorem erase_pure (a : α) : erase (Pure.pure a : Try M.noted ε α) = Pure.pure a := rfl

@[simp] theorem erase_throw (e : ε) : erase (MonadExcept.throw e : Try M.noted ε α) = MonadExcept.throw e := rfl

@[simp] theorem erase_bind (p : Try M.noted ε α) (f : α → Try M.noted ε β) :
    erase (p >>= f) = erase p >>= fun a => erase (f a) := by
  refine (Prog.erase_bind p.run _).trans (congrArg (p.run.erase >>= ·) (funext fun r => ?_))
  cases r <;> rfl

@[simp] theorem erase_note (n : Note) : erase (note n : Try M.noted ε Unit) = Pure.pure () := rfl

@[simp] theorem erase_dev (o : M.Op) : erase (dev o : Try M.noted ε (M.Ret o)) = lift (Prog.call o) := rfl

@[simp] theorem erase_adapt (g : ε → ε) (p : Try M.noted ε α) :
    erase (ExceptT.adapt g p) = ExceptT.adapt g (erase p) := by
  refine (Prog.erase_bind p.run _).trans (congrArg (p.run.erase >>= ·) (funext fun r => ?_))
  cases r <;> rfl

@[simp] theorem erase_ite (c : Prop) [Decidable c] (p q : Try M.noted ε α) :
    erase (if c then p else q) = if c then erase p else erase q := apply_ite erase c p q

theorem erase_loop {f : Nat → σ → Try M.noted ε σ} {g : Nat → σ → Try M ε σ} (h : ∀ i s, erase (f i s) = g i s)
    (n i : Nat) (s : σ) : erase (loop f n i s) = loop g n i s := by
  induction n generalizing i s with
  | zero => rfl
  | succ n ih =>
    rw [loop, erase_bind, h]
    exact congrArg (g i s >>= ·) (funext fun s => ih (i + 1) s)

/-- A result in `Q`, or an error. -/
def Result (Q : α → Prop) : Except ε α → Prop
  | .ok a => Q a
  | .error _ => True

/-- Whatever the operations answer, each is in `P`, and a result is in `Q`. -/
def Always (P : M.Op → Prop) (p : Try M ε α) (Q : α → Prop) : Prop := p.run.Always P (Result Q)

variable {P : M.Op → Prop} {Q Q' : α → Prop}

variable {a : α} {p : Try M ε α} {f : α → Try M ε β} {R : β → Prop} {P : M.Op → Prop}

theorem always_throw {e : ε} : Always P (MonadExcept.throw e : Try M ε α) Q := trivial

theorem Always.mono (h : Always P p Q) (hQ : ∀ a, Q a → Q' a) : Always P p Q' := by
  refine Prog.Always.mono h fun r hr => ?_
  cases r with
  | ok a => exact hQ a hr
  | error e => trivial

theorem always_bind : Always P (p >>= f) R ↔ Always P p fun a => Always P (f a) R := by
  refine Prog.always_bind.trans (Prog.always_congr fun r => ?_)
  cases r <;> exact Iff.rfl

theorem Always.bind (h : Always P p Q)
    (hf : ∀ a, Q a → Always P (f a) R) : Always P (p >>= f) R := always_bind.mpr (h.mono hf)

theorem always_adapt {g : ε → ε} : Always P (ExceptT.adapt g p) Q ↔ Always P p Q := by
  refine Prog.always_bind.trans (Prog.always_congr fun r => ?_)
  cases r <;> exact Iff.rfl

theorem always_dev_bind {o : M.Op} {f : M.Ret o → Try M.noted ε β} :
    Always (Prog.Noting P) (dev o >>= f) R ↔ P o ∧ ∀ r, Always (Prog.Noting P) (f r) R := always_bind

theorem always_note_bind {n : Note} {f : Unit → Try M.noted ε β} :
    Always (Prog.Noting P) (note n >>= f) R ↔ n.Holds ∧ Always (Prog.Noting P) (f ()) R :=
  always_bind.trans (and_congr Iff.rfl ⟨fun h => h (), fun h _ => h⟩)

theorem Always.note {n : Note} {f : Unit → Try M.noted ε β} (hn : n.Holds)
    (h : Always (Prog.Noting P) (f ()) R) : Always (Prog.Noting P) (Try.note n >>= f) R := always_note_bind.mpr ⟨hn, h⟩

/-- What holds before the first round and is kept by each holds after the last. -/
theorem Always.loop {f : Nat → σ → Try M ε σ} {n i : Nat} {x : σ} (I : Nat → σ → Prop) (h : I i x)
    (hstep : ∀ j, i ≤ j → j < i + n → ∀ x, I j x → Always P (f j x) (I (j + 1))) :
    Always P (loop f n i x) (I (i + n)) := by
  induction n generalizing i x with
  | zero => exact h
  | succ n ih =>
    refine (hstep i le_rfl (by omega) x h).bind fun x' h' => ?_
    have := ih h' fun j hj hj' => hstep j (by omega) (by omega)
    rwa [Nat.add_right_comm, Nat.add_assoc] at this

/-- With some answers, the program ends well, in `a`. -/
def Returns (p : Try M ε α) (a : α) : Prop := p.run.Returns (.ok a)

theorem Returns.pure (a : α) : Returns (Pure.pure a : Try M ε α) a := rfl

theorem Returns.bind {b : β} (h : Returns p a) (hf : Returns (f a) b) :
    Returns (p >>= f) b := Prog.Returns.bind h hf

theorem Returns.adapt {g : ε → ε} (h : Returns p a) : Returns (ExceptT.adapt g p) a :=
  Prog.Returns.bind h rfl

theorem Returns.note (n : Note) : Returns (Try.note n : Try M.noted ε Unit) () := ⟨(), rfl⟩

theorem Returns.noted (n : Note) (a : α) : Returns (Try.note n >>= fun _ => Pure.pure a : Try M.noted ε α) a :=
  (Returns.note n).bind (Returns.pure a)

theorem Returns.dev (o : M.Op) (r : M.Ret o) : Returns (Try.dev o : Try M.noted ε (M.Ret o)) r := ⟨r, rfl⟩

theorem Returns.loop {f : Nat → σ → Try M ε σ} {n i : Nat} {x : σ} (I : Nat → σ → Prop) (h : I i x)
    (hstep : ∀ j, i ≤ j → j < i + n → ∀ x, I j x → ∃ x', Returns (f j x) x' ∧ I (j + 1) x') :
    ∃ x', Returns (Try.loop f n i x) x' ∧ I (i + n) x' := by
  induction n generalizing i x with
  | zero => exact ⟨x, rfl, h⟩
  | succ n ih =>
    obtain ⟨x1, hx, h1⟩ := hstep i le_rfl (by omega) x h
    obtain ⟨x', hx', h'⟩ := ih h1 fun j hj hj' => hstep j (by omega) (by omega)
    rw [Nat.add_right_comm] at h'
    exact ⟨x', hx.bind hx', h'⟩

theorem Always.returns (h : Always P p Q) (ha : Returns p a) : Q a :=
  Prog.Always.returns (Q := Result Q) h ha

/-- What is said of a program holds of its second part, where the first can lead to it. -/
theorem Always.after (h : Always P (p >>= f) R)
    (ha : Returns p a) : Always P (f a) R := (always_bind.mp h).returns ha

end Try

end Lorica

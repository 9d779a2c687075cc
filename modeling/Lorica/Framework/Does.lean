import Lorica.Framework.Fallible

/-!
# What a program can do, whatever it is answered

`Try.Does P Q E p` says of a program that can end in an error that all its operations are in
`P`, its results in `Q` and its errors in `E`, for all answers of the machine. `Prog.CanYield p a`
is the other side: with some answers the program ends in `a`; so what is said of the operations of
`p >>= f` holds of those of `f a` (`Uses.of_bind`).
-/

namespace Lorica

variable {M : Machine} {ε α β : Type}

/-- With some answers the program ends in `a`. -/
def Prog.CanYield (a : α) : Prog M α → Prop
  | .pure b => b = a
  | .op _ k => ∃ r, Prog.CanYield a (k r)

variable {p : Prog M α} {f : α → Prog M β}

theorem Prog.CanYield.bind {a : α} {b : β} (h : p.CanYield a) (hf : (f a).CanYield b) : (p >>= f).CanYield b := by
  induction p with
  | pure c =>
    obtain rfl : c = a := h
    exact hf
  | op o k ih =>
    obtain ⟨r, hr⟩ := h
    exact ⟨r, ih r hr⟩

theorem Uses.of_bind_left {P : M.Op → Prop} (h : Uses P (p >>= f)) : Uses P p := by
  induction p with
  | pure c => trivial
  | op o k ih => exact ⟨h.1, fun r => ih r (h.2 r)⟩

theorem Uses.of_bind {P : M.Op → Prop} {a : α} (h : Uses P (p >>= f)) (ha : p.CanYield a) : Uses P (f a) := by
  induction p with
  | pure c =>
    obtain rfl : c = a := ha
    exact h
  | op o k ih =>
    obtain ⟨r, hr⟩ := ha
    exact ih r (h.2 r) hr

namespace Try

variable {P : M.Op → Prop} {Q : α → Prop} {E : ε → Prop}

/-- An end of a program: a result in `Q`, or an error in `E`. -/
def Ends (Q : α → Prop) (E : ε → Prop) (r : Except ε α) : Prop :=
  (∀ a, r = .ok a → Q a) ∧ ∀ e, r = .error e → E e

variable {a : α}

theorem ends_ok (h : Q a) : Ends Q E (.ok a) :=
  ⟨fun _ ha => by cases ha; exact h, fun _ he => by cases he⟩

theorem ends_error {e : ε} (h : E e) : Ends Q E (.error e) :=
  ⟨fun _ ha => (by cases ha), fun _ he => by cases he; exact h⟩

theorem Ends.bind {x : Except ε α} {f : α → Except ε β} {R : β → Prop} (h : Ends Q E x)
    (hf : ∀ a, Q a → Ends R E (f a)) : Ends R E (x >>= f) := by
  cases x with
  | ok a => exact hf a (h.1 a rfl)
  | error e => exact ends_error (h.2 e rfl)

/-- All operations are in `P`, all results in `Q` and all errors in `E`. -/
def Does (P : M.Op → Prop) (Q : α → Prop) (E : ε → Prop) (p : Try M ε α) : Prop :=
  Uses P p.run ∧ Yields (Ends Q E) p.run

namespace Does

theorem pure {a : α} (h : Q a) : Does P Q E (Pure.pure a : Try M ε α) :=
  ⟨trivial, ends_ok h⟩

theorem throw {e : ε} (h : E e) : Does P Q E (MonadExcept.throw e : Try M ε α) :=
  ⟨trivial, ends_error h⟩

theorem bind {p : Try M ε α} {f : α → Try M ε β} {R : β → Prop} (h : Does P Q E p)
    (hf : ∀ a, Q a → Does P R E (f a)) : Does P R E (p >>= f) := by
  obtain ⟨hu, hy⟩ := h
  constructor
  · -- the rest is reached with the results that `Yields` allows only
    have key : ∀ q : Prog M (Except ε α), Uses P q → Yields (Ends Q E) q → Uses P (q >>= ExceptT.bindCont f) := by
      intro q hu hy
      induction q with
      | pure r =>
        cases r with
        | ok a => exact (hf a (hy.1 a rfl)).1
        | error e => trivial
      | op o k ih => exact ⟨hu.1, fun r => ih r (hu.2 r) (hy r)⟩
    exact key p.run hu hy
  · refine Yields.bind hy fun r hr => ?_
    cases r with
    | ok a => exact (hf a (hr.1 a rfl)).2
    | error e => exact ends_error (hr.2 e rfl)

theorem lift {p : Prog M α} (h : Uses P p) : Does P (fun _ => True) E (Try.lift p : Try M ε α) := by
  constructor
  · exact Uses.bind h fun _ => trivial
  · exact Yields.bind (Yields.all p) fun a _ => ends_ok trivial

end Does

/-- With some answers the program ends well, in `a`. -/
def CanEnd (p : Try M ε α) (a : α) : Prop := p.run.CanYield (.ok a)

theorem CanEnd.pure (a : α) : CanEnd (Pure.pure a : Try M ε α) a := rfl

theorem CanEnd.bind {p : Try M ε α} {f : α → Try M ε β} {b : β} (h : CanEnd p a) (hf : CanEnd (f a) b) :
    CanEnd (p >>= f) b :=
  Prog.CanYield.bind h hf

/-- The operations of a program and of what follows it. -/
theorem uses_bind_iff {p : Try M ε α} {f : α → Try M ε β} (ha : CanEnd p a)
    (hall : ∀ b, CanEnd p b → b = a) : Uses P (p >>= f).run ↔ Uses P p.run ∧ Uses P (f a).run := by
  constructor
  · intro h
    have h' : Uses P (p.run >>= ExceptT.bindCont f) := h
    exact ⟨h'.of_bind_left, h'.of_bind ha⟩
  · rintro ⟨hp, hf⟩
    have key : ∀ q : Prog M (Except ε α), Uses P q → (∀ b, q.CanYield (.ok b) → b = a) →
        Uses P (q >>= ExceptT.bindCont f) := by
      intro q hu hq
      induction q with
      | pure r =>
        cases r with
        | ok b =>
          obtain rfl := hq b rfl
          exact hf
        | error e => trivial
      | op o k ih => exact ⟨hu.1, fun r => ih r (hu.2 r) fun b hb => hq b ⟨r, hb⟩⟩
    exact key p.run hp hall

end Try

end Lorica

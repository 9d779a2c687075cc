import Lorica.Framework.Prog

/-!
# Programs that can end in an error

A function that returns an error code ends its caller as well, as a rule, so that such
programs are written with `ExceptT`. `Try.WP A p s Q E C` says of each end that it is a
result as `Q` says or an error as `E` says, and what a crash leaves is as `C` says. A
counting loop over such a program is `Try.loop`, with one rule for its invariants
(`Try.WP.loop`).
-/

namespace Lorica

variable {M : Machine} {ε α β σ : Type}

/-- Programs over `M` that can end in an error. -/
abbrev Try (M : Machine) (ε : Type) := ExceptT ε (Prog M)

namespace Try

/-- A program that does not fail. -/
def lift (p : Prog M α) : Try M ε α := ExceptT.lift p

/-- `for (i = ...; n times; i++) s = f(i, s)`. -/
def loop (f : Nat → σ → Try M ε σ) : Nat → Nat → σ → Try M ε σ
  | 0, _, s => pure s
  | n + 1, i, s => do
    let s ← f i s
    loop f n (i + 1) s

/-- A part that ends well, and then the rest, when all choices are the same. -/
theorem exec_bind {p : Try M ε α} {f : α → Try M ε β} {c : M.Choice} {s s' : M.State} {a : α}
    (h : p.run.exec (fun _ => c) s = (.ok a, s')) :
    (p >>= f).run.exec (fun _ => c) s = (f a).run.exec (fun _ => c) s' := by
  refine (Prog.exec_bind p.run _ c s).trans ?_
  rw [h]
  rfl

/-- The end is a result as `Q` says, or an error as `E` says. -/
def Post (Q : α → M.State → Prop) (E : ε → M.State → Prop) : Except ε α → M.State → Prop
  | .ok a, s => Q a s
  | .error e, s => E e s

def WP (A : M.Choice → Prop) (p : Try M ε α) (s : M.State) (Q : α → M.State → Prop) (E : ε → M.State → Prop)
    (C : M.Op → M.State → Prop) : Prop :=
  Lorica.WP A p.run s (Post Q E) C

variable {A : M.Choice → Prop} {s : M.State} {Q Q' : α → M.State → Prop} {E : ε → M.State → Prop}
  {C : M.Op → M.State → Prop}

namespace WP

theorem pure {a : α} (h : Q a s) : WP A (Pure.pure a : Try M ε α) s Q E C := h

theorem throw {e : ε} (h : E e s) : WP A (MonadExcept.throw e : Try M ε α) s Q E C := h

theorem weaken {p : Try M ε α} {E' : ε → M.State → Prop} {C' : M.Op → M.State → Prop} (h : WP A p s Q E C)
    (hQ : ∀ a s', Q a s' → Q' a s') (hE : ∀ e s', E e s' → E' e s') (hC : ∀ o s', C o s' → C' o s') :
    WP A p s Q' E' C' := by
  refine Lorica.WP.mono h (fun r s' hr => ?_) hC
  cases r with
  | ok a => exact hQ a s' hr
  | error e => exact hE e s' hr

theorem mono {p : Try M ε α} (h : WP A p s Q E C) (hQ : ∀ a s', Q a s' → Q' a s') : WP A p s Q' E C :=
  weaken h hQ (fun _ _ h => h) fun _ _ h => h

theorem bind {p : Try M ε α} {f : α → Try M ε β} {R : β → M.State → Prop} (h : WP A p s Q E C)
    (hf : ∀ a s', Q a s' → WP A (f a) s' R E C) : WP A (p >>= f) s R E C := by
  refine Lorica.WP.seq h (fun r s' hr => ?_)
  cases r with
  | ok a => exact hf a s' hr
  | error e => exact hr

/-- An operation, and what is done with its answer. -/
theorem lift_bind {p : Prog M α} {f : α → Try M ε β} {R : β → M.State → Prop} (h : Lorica.WP A p s Q C)
    (hf : ∀ a s', Q a s' → WP A (f a) s' R E C) : WP A (lift p >>= f) s R E C := by
  refine bind (Q := Q) ?_ hf
  exact Lorica.WP.seq h (fun _ _ h => h)

/-- Another error in the place of that of `p`. -/
theorem adapt {p : Try M ε α} {g : ε → ε} (h : WP A p s Q (fun e => E (g e)) C) :
    WP A (ExceptT.adapt g p) s Q E C := by
  refine Lorica.WP.seq h (fun r s' hr => ?_)
  cases r with
  | ok a => exact hr
  | error e => exact hr

/-- What holds before the first round and is kept by each holds after the last. -/
theorem loop {f : Nat → σ → Try M ε σ} {n i : Nat} {x : σ} (I : Nat → σ → M.State → Prop) (h : I i x s)
    (hstep : ∀ j, i ≤ j → j < i + n → ∀ x s, I j x s → WP A (f j x) s (I (j + 1)) E C) :
    WP A (loop f n i x) s (I (i + n)) E C := by
  induction n generalizing i x s with
  | zero => exact h
  | succ n ih =>
    refine bind (hstep i (le_refl i) (by omega) x s h) fun x' s' h' => ?_
    have := ih h' fun j hj hj' => hstep j (by omega) (by omega)
    rwa [Nat.add_right_comm, Nat.add_assoc] at this

end WP

end Try

end Lorica

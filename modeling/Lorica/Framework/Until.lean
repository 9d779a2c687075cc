import Lorica.Framework.Fallible

/-!
# Up to an operation

What holds at every point of a run up to the first of certain operations, such as the write
that commits (`Until`), and that a run gets to a point before these (`Prog.Meets`).
-/

namespace Lorica

variable {M : Machine} {ε α β : Type}

/-- `R` holds at every point up to an operation with `stop`. -/
def Until (A : M.Choice → Prop) (stop : M.Op → Bool) (R : M.State → Prop) : Prog M α → M.State → Prop
  | .pure _, s => R s
  | .op o k, s => R s ∧ (stop o = false → ∀ c, A c → Until A stop R (k (M.step o c s).1) (M.step o c s).2)

section

variable {A : M.Choice → Prop} {stop : M.Op → Bool} {R : M.State → Prop} {p : Prog M α} {s : M.State}

theorem Until.bind {f : α → Prog M β} {Q : α → M.State → Prop} (h : WP A p s Q fun _ => R)
    (hf : ∀ a s', Q a s' → Until A stop R (f a) s') : Until A stop R (p >>= f) s := by
  induction p generalizing s with
  | pure a => exact hf a s h
  | op o k ih => exact ⟨h.1, fun _ c hc => ih _ (h.2 c hc)⟩

theorem Until.after (h : Until A stop R p s) {σ : Nat → M.Choice} (hA : ∀ n, A (σ n)) {n : Nat}
    (hn : ∀ o ∈ (p.trace σ s).take n, stop o = false) : R (p.after σ n s) := by
  induction p generalizing s σ n with
  | pure a => exact h
  | op o k ih =>
    cases n with
    | zero => exact h.1
    | succ n =>
      obtain ⟨ho, hrest⟩ := List.forall_mem_cons.mp hn
      exact ih _ (h.2 ho _ (hA 0)) (fun n => hA (n + 1)) hrest

/-- The run with the choice `c` throughout gets to a state as `R` says before it gets to an
operation with `stop`. -/
def Prog.Meets (stop : M.Op → Bool) (R : M.State → Prop) (p : Prog M α) (c : M.Choice) (s : M.State) : Prop :=
  ∃ n, (∀ o ∈ (p.trace (fun _ => c) s).take n, stop o = false) ∧ R (p.after (fun _ => c) n s)

theorem Prog.Meets.here {c : M.Choice} (h : R s) : p.Meets stop R c s := by
  refine ⟨0, List.forall_mem_nil _, ?_⟩
  rwa [Prog.after_zero]

theorem Prog.Meets.bind {f : α → Prog M β} {c : M.Choice} (h : ∀ o ∈ p.trace (fun _ => c) s, stop o = false)
    (hf : (f (p.exec (fun _ => c) s).1).Meets stop R c (p.exec (fun _ => c) s).2) : (p >>= f).Meets stop R c s := by
  induction p generalizing s with
  | pure a => exact hf
  | op o k ih =>
    obtain ⟨ho, hrest⟩ := List.forall_mem_cons.mp h
    obtain ⟨n, hn, hR⟩ := ih _ hrest hf
    exact ⟨n + 1, List.forall_mem_cons.mpr ⟨ho, hn⟩, hR⟩

end

namespace Try

variable {A : M.Choice → Prop} {stop : M.Op → Bool} {R : M.State → Prop} {p : Try M ε α} {s s' : M.State}

theorem until_bind {f : α → Try M ε β} {Q : α → M.State → Prop} (h : WP A p s Q (fun _ => R) fun _ => R)
    (hf : ∀ a s', Q a s' → Until A stop R (f a).run s') : Until A stop R (p >>= f).run s := by
  refine Until.bind h fun r s' hr => ?_
  cases r with
  | ok a => exact hf a s' hr
  | error e => exact hr

theorem meets_bind {f : α → Try M ε β} {c : M.Choice} {a : α}
    (h : ∀ o ∈ p.run.trace (fun _ => c) s, stop o = false) (hp : p.run.exec (fun _ => c) s = (.ok a, s'))
    (hf : (f a).run.Meets stop R c s') : (p >>= f).run.Meets stop R c s := by
  refine Prog.Meets.bind h ?_
  show Prog.Meets stop R (ExceptT.bindCont f (p.run.exec (fun _ => c) s).1) c (p.run.exec (fun _ => c) s).2
  rw [hp]
  exact hf

end Try

end Lorica

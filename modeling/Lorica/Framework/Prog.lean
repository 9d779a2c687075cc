import Mathlib

/-!
# Programs over a machine that can stop at any operation

A `Machine` has operations, each of which answers and changes the state as a
choice of the environment decides (an I/O error, a short write, the order of a
directory listing). A `Prog` is a program over its operations. `Prog.run` runs
one along a list of choices and stops, as a power cut does, where the list ends;
`Prog.exec` runs it to its end, `Prog.trace` are the operations on the way and
`Prog.after` the states between them.

`WP A p s Q C` says that, from `s`, whatever the choices in `A`, the program
ends in a result and a state satisfying `Q`, and that a crash before any of its
operations leaves a state satisfying `C`. Its rules (`WP.bind`, `WP.mono`) are
proved by induction on the program; `WP.run_crashed` and `WP.exec_done` say what
it means for runs, and `WP.run_log` relates the state to what has been done so far
(`Prog.log`).

`Can A p s a s'` is the other side: there are choices in `A` with which the
program ends in `a` and `s'`. `Uses P p` says that the program makes no other
operations than those in `P`, so that what these keep is kept (`Uses.wp`), and
`Yields P p` that its result satisfies `P` whatever the operations answer.
`Bounded P n p` bounds their number as well. A program that only reads has a value
in each state (`Prog.value`).
-/

namespace Lorica

open List

/-- A machine: its state, its operations with the type of their answers, and
what an operation does under each choice of the environment. `tear o k s` is what
a crash in the middle of `o` leaves of it, for each amount of work `k`. -/
structure Machine where
  State : Type
  Op : Type
  Ret : Op → Type
  Choice : Type
  step : (o : Op) → Choice → State → Ret o × State
  tear : Op → Nat → State → State

/-- Programs over the operations of `M`. -/
inductive Prog (M : Machine) (α : Type) : Type
  | pure (a : α)
  | op (o : M.Op) (k : M.Ret o → Prog M α)

variable {M : Machine} {α β : Type}

namespace Prog

protected def bind : Prog M α → (α → Prog M β) → Prog M β
  | .pure a, f => f a
  | .op o k, f => .op o fun r => (k r).bind f

instance : Monad (Prog M) where
  pure := .pure
  bind := .bind

/-- The program of one operation. -/
def call (o : M.Op) : Prog M (M.Ret o) := .op o .pure

@[simp] theorem pure_bind (a : α) (f : α → Prog M β) : (Pure.pure a >>= f : Prog M β) = f a := rfl

theorem bind_assoc {γ : Type} (p : Prog M α) (f : α → Prog M β) (g : β → Prog M γ) :
    (p >>= f) >>= g = p >>= fun a => f a >>= g := by
  induction p with
  | pure a => rfl
  | op o k ih => exact congrArg (Prog.op o) (funext ih)

@[simp] theorem call_bind (o : M.Op) (f : M.Ret o → Prog M β) : (call o >>= f : Prog M β) = .op o f := rfl

end Prog

/-- How a run ends: with a result, or before the operation `o`, at which it
crashed. -/
inductive Outcome (M : Machine) (α : Type)
  | done (a : α) (s : M.State)
  | crashed (o : M.Op) (s : M.State)

/-- The state a run ends in. -/
def Outcome.state : Outcome M α → M.State
  | .done _ s => s
  | .crashed _ s => s

def Outcome.isCrashed : Outcome M α → Bool
  | .done _ _ => false
  | .crashed _ _ => true

/-- The operation before which a run has crashed. -/
def Outcome.pending : Outcome M α → Option M.Op
  | .done _ _ => none
  | .crashed o _ => some o

theorem Outcome.eq_crashed_of_pending {r : Outcome M α} {o : M.Op} (h : r.pending = some o) :
    r = .crashed o r.state := by
  cases r with
  | done b s => cases h
  | crashed o s => cases h; rfl

/-- The result of a run that has one. -/
def Outcome.result : Outcome M α → Option α
  | .done a _ => some a
  | .crashed _ _ => none

theorem Outcome.eq_done {r : Outcome M α} {a : α} (h : r.result = some a) : r = .done a r.state := by
  cases r with
  | done b s => cases h; rfl
  | crashed o s => cases h

theorem Outcome.eq_crashed {r : Outcome M α} (h : r.isCrashed = true) : ∃ o, r = .crashed o r.state := by
  cases r with
  | done a s => cases h
  | crashed o s => exact ⟨o, rfl⟩

namespace Prog

/-- A run along the choices `cs`, one for each operation. The program crashes
where they end. -/
def run : Prog M α → List M.Choice → M.State → Outcome M α
  | .pure a, _, s => .done a s
  | .op o _, [], s => .crashed o s
  | .op o k, c :: cs, s => (k (M.step o c s).1).run cs (M.step o c s).2

/-- A run to the end, along a stream of choices. -/
def exec : Prog M α → (Nat → M.Choice) → M.State → α × M.State
  | .pure a, _, s => (a, s)
  | .op o k, σ, s => (k (M.step o (σ 0) s).1).exec (fun n => σ (n + 1)) (M.step o (σ 0) s).2

/-- Changing only the result of a program. -/
theorem exec_bind_pure (p : Prog M α) (g : α → β) (σ : Nat → M.Choice) (s : M.State) :
    (p >>= fun a => Pure.pure (g a) : Prog M β).exec σ s = (g (p.exec σ s).1, (p.exec σ s).2) := by
  induction p generalizing σ s with
  | pure a => rfl
  | op o k ih => exact ih _ _ _

/-- A part of a program, and then the rest, when all choices are the same. -/
theorem exec_bind (p : Prog M α) (f : α → Prog M β) (c : M.Choice) (s : M.State) : (p >>= f).exec (fun _ => c) s =
      (f (p.exec (fun _ => c) s).1).exec (fun _ => c) (p.exec (fun _ => c) s).2 := by
  induction p generalizing s with
  | pure a => rfl
  | op o k ih => exact ih _ _

/-- What the operations of a run along `cs` give, in their order. -/
def log (f : M.Op → M.Choice → M.State → List β) : Prog M α → List M.Choice → M.State → List β
  | .pure _, _, _ => []
  | .op _ _, [], _ => []
  | .op o k, c :: cs, s => f o c s ++ (k (M.step o c s).1).log f cs (M.step o c s).2

/-- The operations of a run to the end. -/
def trace : Prog M α → (Nat → M.Choice) → M.State → List M.Op
  | .pure _, _, _ => []
  | .op o k, σ, s => o :: (k (M.step o (σ 0) s).1).trace (fun n => σ (n + 1)) (M.step o (σ 0) s).2

/-- The state after the first `n` operations of a run. -/
def after : Prog M α → (Nat → M.Choice) → Nat → M.State → M.State
  | .pure _, _, _, s => s
  | .op _ _, _, 0, s => s
  | .op o k, σ, n + 1, s => (k (M.step o (σ 0) s).1).after (fun n => σ (n + 1)) n (M.step o (σ 0) s).2

theorem after_zero (p : Prog M α) (σ : Nat → M.Choice) (s : M.State) : p.after σ 0 s = s := by
  cases p <;> rfl

theorem trace_bind (p : Prog M α) (f : α → Prog M β) (σ : Nat → M.Choice) (s : M.State) :
    (p >>= f).trace σ s = p.trace σ s ++
      (f (p.exec σ s).1).trace (fun n => σ (n + (p.trace σ s).length)) (p.exec σ s).2 := by
  induction p generalizing σ s with
  | pure a => rfl
  | op o k ih => exact congrArg (cons o) (ih _ _ _)

end Prog

/-- From `s`, whatever the choices in `A`, the program ends as `Q` says, and a
crash before any of its operations leaves a state satisfying `C`. -/
def WP (A : M.Choice → Prop) : Prog M α → M.State → (α → M.State → Prop) →
    (M.Op → M.State → Prop) → Prop
  | .pure a, s, Q, _ => Q a s
  | .op o k, s, Q, C => C o s ∧ ∀ c, A c → WP A (k (M.step o c s).1) (M.step o c s).2 Q C

section

variable {A : M.Choice → Prop} {p : Prog M α} {s : M.State} {Q Q' : α → M.State → Prop}
  {C C' : M.Op → M.State → Prop}

theorem WP.pure {a : α} (h : Q a s) : WP A (Pure.pure a : Prog M α) s Q C := h

theorem WP.mono (h : WP A p s Q C) (hQ : ∀ a s', Q a s' → Q' a s')
    (hC : ∀ o s', C o s' → C' o s') : WP A p s Q' C' := by
  induction p generalizing s with
  | pure a => exact hQ _ _ h
  | op o k ih => exact ⟨hC _ _ h.1, fun c hc => ih _ (h.2 c hc)⟩

/-- A weaker end. -/
theorem WP.post (h : WP A p s Q C) (hQ : ∀ a s', Q a s' → Q' a s') : WP A p s Q' C :=
  h.mono hQ fun _ _ h => h

/-- A weaker end, whatever is asked for before it. -/
theorem WP.ends (h : WP A p s Q C) (hQ : ∀ a s', Q a s' → Q' a s') : WP A p s Q' fun _ _ => True :=
  h.mono hQ fun _ _ _ => trivial

theorem WP.restrict {A' : M.Choice → Prop} (h : WP A p s Q C) (hA : ∀ c, A' c → A c) : WP A' p s Q C := by
  induction p generalizing s with
  | pure a => exact h
  | op o k ih => exact ⟨h.1, fun c hc => ih _ (h.2 c (hA c hc))⟩

theorem WP.trivial : WP A p s (fun _ _ => True) (fun _ _ => True) := by
  induction p generalizing s with
  | pure a => exact True.intro
  | op o k ih => exact ⟨True.intro, fun _ _ => ih _⟩

theorem WP.bind_iff {f : α → Prog M β} {R : β → M.State → Prop} :
    WP A (p >>= f) s R C ↔ WP A p s (fun a s' => WP A (f a) s' R C) C := by
  induction p generalizing s with
  | pure a => exact Iff.rfl
  | op o k ih => exact and_congr Iff.rfl (forall₂_congr fun _ _ => ih _)

/-- Sequencing: what the first part ends in is where the second starts. -/
theorem WP.bind {f : α → Prog M β} {R : β → M.State → Prop}
    (h : WP A p s Q C') (hf : ∀ a s', Q a s' → WP A (f a) s' R C)
    (hC : ∀ o s', C' o s' → C o s') : WP A (p >>= f) s R C :=
  WP.bind_iff.mpr (h.mono hf hC)

theorem WP.seq {f : α → Prog M β} {R : β → M.State → Prop} (h : WP A p s Q C)
    (hf : ∀ a s', Q a s' → WP A (f a) s' R C) :
    WP A (p >>= f) s R C :=
  WP.bind_iff.mpr (h.post hf)

theorem WP.thenEnds {f : α → Prog M β} {R : β → M.State → Prop} (h : WP A p s Q C)
    (hf : ∀ a s', Q a s' → WP A (f a) s' R fun _ _ => True) : WP A (p >>= f) s R fun _ _ => True :=
  WP.bind_iff.mpr (h.ends hf)

theorem WP.and {Q2 : α → M.State → Prop} {C2 : M.Op → M.State → Prop} (h : WP A p s Q C) (h2 : WP A p s Q2 C2) :
    WP A p s (fun a s' => Q a s' ∧ Q2 a s') (fun o s' => C o s' ∧ C2 o s') := by
  induction p generalizing s with
  | pure a => exact ⟨h, h2⟩
  | op o k ih => exact ⟨⟨h.1, h2.1⟩, fun c hc => ih _ (h.2 c hc) (h2.2 c hc)⟩

/-- A crash along allowed choices leaves what `C` says. -/
theorem WP.run_crashed (h : WP A p s Q C) {cs : List M.Choice} (hA : ∀ c ∈ cs, A c) {o : M.Op}
    {s' : M.State} (hr : p.run cs s = .crashed o s') : C o s' := by
  induction p generalizing s cs with
  | pure a => cases hr
  | op o k ih =>
    cases cs with
    | nil => cases hr; exact h.1
    | cons c cs =>
      exact ih _ (h.2 c (hA c mem_cons_self)) (fun c hc => hA c (mem_cons_of_mem _ hc)) hr

/-- A run that gets to its end along allowed choices ends as `Q` says. -/
theorem WP.run_done (h : WP A p s Q C) {cs : List M.Choice} (hA : ∀ c ∈ cs, A c) {a : α}
    {s' : M.State} (hr : p.run cs s = .done a s') : Q a s' := by
  induction p generalizing s cs with
  | pure a => cases hr; exact h
  | op o k ih =>
    cases cs with
    | nil => cases hr
    | cons c cs =>
      exact ih _ (h.2 c (hA c mem_cons_self)) (fun c hc => hA c (mem_cons_of_mem _ hc)) hr

/-- What relates the state to the log of the operations so far, and is kept by each
operation, holds at a crash. -/
theorem WP.run_log (h : WP A p s Q C) {f : M.Op → M.Choice → M.State → List β} {J : M.State → List β → Prop}
    (hJ : ∀ o c s l, C o s → A c → J s l → J (M.step o c s).2 (l ++ f o c s)) {cs : List M.Choice} {l : List β}
    (h0 : J s l) (hA : ∀ c ∈ cs, A c) {o : M.Op} {s' : M.State} (hr : p.run cs s = .crashed o s') :
    J s' (l ++ p.log f cs s) := by
  induction p generalizing s cs l with
  | pure a => cases hr
  | op o k ih =>
    cases cs with
    | nil =>
      cases hr
      simpa [Prog.log] using h0
    | cons c cs =>
      have hc := hA c mem_cons_self
      have := ih _ (h.2 c hc) (hJ o c s l h.1 hc h0) (fun c hc => hA c (mem_cons_of_mem _ hc)) hr
      rwa [append_assoc] at this

/-- An uninterrupted run along allowed choices ends as `Q` says. -/
theorem WP.exec_done (h : WP A p s Q C) {σ : Nat → M.Choice} (hA : ∀ n, A (σ n)) :
    Q (p.exec σ s).1 (p.exec σ s).2 := by
  induction p generalizing s σ with
  | pure a => exact h
  | op o k ih => exact ih _ (h.2 _ (hA 0)) fun n => hA (n + 1)

theorem WP.trace {P : M.Op → Prop} (h : WP A p s Q fun o _ => P o) {σ : Nat → M.Choice} (hA : ∀ n, A (σ n)) :
    ∀ o ∈ p.trace σ s, P o := by
  induction p generalizing s σ with
  | pure a => exact forall_mem_nil _
  | op o k ih => exact forall_mem_cons.mpr ⟨h.1, ih _ (h.2 _ (hA 0)) fun n => hA (n + 1)⟩

/-- What holds at every point holds after any number of operations. -/
theorem WP.after {R : M.State → Prop} (h : WP A p s (fun _ => R) fun _ => R) {σ : Nat → M.Choice}
    (hA : ∀ n, A (σ n)) (n : Nat) : R (p.after σ n s) := by
  induction p generalizing s σ n with
  | pure a => exact h
  | op o k ih =>
    cases n with
    | zero => exact h.1
    | succ n => exact ih _ (h.2 _ (hA 0)) (fun n => hA (n + 1)) n

end

/-- A run of the program from `s` can crash in `s'`. -/
def Prog.Crashes (A : M.Choice → Prop) (p : Prog M α) (s s' : M.State) : Prop :=
  ∃ cs o, (∀ c ∈ cs, A c) ∧ p.run cs s = .crashed o s'

theorem WP.crashes {A : M.Choice → Prop} {p : Prog M α} {s s' : M.State} {Q : α → M.State → Prop}
    {C : M.State → Prop} (h : WP A p s Q fun _ => C) (hc : p.Crashes A s s') : C s' := by
  obtain ⟨cs, o, hA, hr⟩ := hc
  exact h.run_crashed hA hr

/-- A run of the program from `s` can crash or end in `s'`. -/
def Prog.Reaches (A : M.Choice → Prop) (p : Prog M α) (s s' : M.State) : Prop :=
  ∃ cs, (∀ c ∈ cs, A c) ∧ (p.run cs s).state = s'

theorem WP.reaches {A : M.Choice → Prop} {p : Prog M α} {s s' : M.State} {R : M.State → Prop}
    (h : WP A p s (fun _ => R) fun _ => R) (hc : p.Reaches A s s') : R s' := by
  obtain ⟨cs, hA, rfl⟩ := hc
  cases hr : p.run cs s with
  | done a s' => exact h.run_done hA hr
  | crashed o s' => exact h.run_crashed hA hr

/-! ## Possible runs -/

/-- With some choices in `A`, the program ends in the result `a` and the state
`s'`. -/
def Can (A : M.Choice → Prop) : Prog M α → M.State → α → M.State → Prop
  | .pure b, s, a, s' => b = a ∧ s = s'
  | .op o k, s, a, s' => ∃ c, A c ∧ Can A (k (M.step o c s).1) (M.step o c s).2 a s'

section

variable {A : M.Choice → Prop} {p : Prog M α} {s s' : M.State} {a : α} {b : β}

theorem Can.pure : Can A (Pure.pure a : Prog M α) s a s := ⟨rfl, rfl⟩

theorem Can.bind_iff {f : α → Prog M β} :
    Can A (p >>= f) s b s' ↔ ∃ a s1, Can A p s a s1 ∧ Can A (f a) s1 b s' := by
  induction p generalizing s with
  | pure a =>
    refine ⟨fun h => ⟨a, s, ⟨rfl, rfl⟩, h⟩, ?_⟩
    rintro ⟨_, _, ⟨rfl, rfl⟩, h⟩
    exact h
  | op o k ih =>
    constructor
    · rintro ⟨c, hc, h⟩
      obtain ⟨a, s1, h1, h2⟩ := (ih _).mp h
      exact ⟨a, s1, ⟨c, hc, h1⟩, h2⟩
    · rintro ⟨a, s1, ⟨c, hc, h1⟩, h2⟩
      exact ⟨c, hc, (ih _).mpr ⟨a, s1, h1, h2⟩⟩

theorem Can.bind {f : α → Prog M β} {s1 : M.State} (h : Can A p s a s1) (h' : Can A (f a) s1 b s') :
    Can A (p >>= f) s b s' :=
  Can.bind_iff.mpr ⟨a, s1, h, h'⟩

theorem Can.run (h : Can A p s a s') : ∃ cs : List M.Choice, (∀ c ∈ cs, A c) ∧ p.run cs s = .done a s' := by
  induction p generalizing s with
  | pure b =>
    obtain ⟨rfl, rfl⟩ := h
    exact ⟨[], forall_mem_nil _, rfl⟩
  | op o k ih =>
    obtain ⟨c, hc, h⟩ := h
    obtain ⟨cs, hcs, hr⟩ := ih _ h
    exact ⟨c :: cs, forall_mem_cons.mpr ⟨hc, hcs⟩, hr⟩

theorem Can.of_run {cs : List M.Choice} (hA : ∀ c ∈ cs, A c) (h : p.run cs s = .done a s') : Can A p s a s' := by
  induction p generalizing s cs with
  | pure b => cases h; exact ⟨rfl, rfl⟩
  | op o k ih =>
    cases cs with
    | nil => cases h
    | cons c cs =>
      exact ⟨c, hA c mem_cons_self, ih _ (fun c hc => hA c (mem_cons_of_mem _ hc)) h⟩

theorem Prog.Reaches.refl : p.Reaches A s s := ⟨[], forall_mem_nil _, by cases p <;> rfl⟩

/-- A run can stop after the first operation. -/
theorem Prog.Reaches.op {o : M.Op} {k : M.Ret o → Prog M α} {c : M.Choice} (hc : A c) :
    (Prog.op o k).Reaches A s (M.step o c s).2 := by
  obtain ⟨cs, hcs, h⟩ : (k (M.step o c s).1).Reaches A (M.step o c s).2 (M.step o c s).2 := .refl
  exact ⟨c :: cs, forall_mem_cons.mpr ⟨hc, hcs⟩, h⟩

/-- A run can stop in the first part. -/
theorem Prog.Reaches.bind {f : α → Prog M β} (h : p.Reaches A s s') : (p >>= f).Reaches A s s' := by
  obtain ⟨cs, hcs, h⟩ := h
  induction p generalizing s cs with
  | pure a =>
    obtain rfl : s = s' := h
    exact .refl
  | op o k ih =>
    cases cs with
    | nil =>
      obtain rfl : s = s' := h
      exact .refl
    | cons c cs =>
      obtain ⟨cs', hcs', h'⟩ := ih _ cs (fun c hc => hcs c (mem_cons_of_mem _ hc)) h
      exact ⟨c :: cs', forall_mem_cons.mpr ⟨hcs c mem_cons_self, hcs'⟩, h'⟩

/-- A run can stop in the second part, when the first can come to its end. -/
theorem Can.reaches {f : α → Prog M β} {s1 : M.State} (h : Can A p s a s1) (h' : (f a).Reaches A s1 s') :
    (p >>= f).Reaches A s s' := by
  induction p generalizing s with
  | pure b =>
    obtain ⟨rfl, rfl⟩ := h
    exact h'
  | op o k ih =>
    obtain ⟨c, hc, h⟩ := h
    obtain ⟨cs, hcs, hr⟩ := ih _ h
    exact ⟨c :: cs, forall_mem_cons.mpr ⟨hc, hcs⟩, hr⟩

/-- What holds of every end holds of a possible one. -/
theorem WP.can {Q : α → M.State → Prop} {C : M.Op → M.State → Prop} (h : WP A p s Q C) (h' : Can A p s a s') :
    Q a s' := by
  obtain ⟨cs, hcs, hr⟩ := h'.run
  exact h.run_done hcs hr

/-- What the program ends in is an end that it can come to. -/
theorem WP.withCan {Q : α → M.State → Prop} {C : M.Op → M.State → Prop} (h : WP A p s Q C) :
    WP A p s (fun a s' => Q a s' ∧ Can A p s a s') C := by
  induction p generalizing s with
  | pure a => exact ⟨h, rfl, rfl⟩
  | op o k ih => exact ⟨h.1, fun c hc => (ih _ (h.2 c hc)).post fun _ _ h' => ⟨h'.1, c, hc, h'.2⟩⟩

/-- There is always an end, if there is a choice that is always allowed. -/
theorem WP.exists_can {A' : M.Choice → Prop} {Q : α → M.State → Prop} {C : M.Op → M.State → Prop}
    (h : WP A' p s Q C) {c : M.Choice} (hc' : A' c) (hc : A c) : ∃ a s', Can A p s a s' ∧ Q a s' := by
  induction p generalizing s with
  | pure a => exact ⟨a, s, ⟨rfl, rfl⟩, h⟩
  | op o k ih =>
    obtain ⟨a, s', hcan, hq⟩ := ih _ (h.2 c hc')
    exact ⟨a, s', ⟨c, hc, hcan⟩, hq⟩

end

/-! ## The operations of a program -/

/-- All operations that the program can make are in `P`. -/
def Uses (P : M.Op → Prop) : Prog M α → Prop
  | .pure _ => True
  | .op o k => P o ∧ ∀ r, Uses P (k r)

section

variable {P : M.Op → Prop} {A : M.Choice → Prop} {p : Prog M α} {s : M.State}

theorem Uses.pure (a : α) : Uses P (Pure.pure a : Prog M α) := trivial

theorem Uses.bind {f : α → Prog M β} (h : Uses P p) (hf : ∀ a, Uses P (f a)) : Uses P (p >>= f) := by
  induction p with
  | pure a => exact hf a
  | op o k ih => exact ⟨h.1, fun r => ih r (h.2 r)⟩

theorem Uses.call {o : M.Op} (h : P o) : Uses P (Prog.call o) := ⟨h, fun _ => trivial⟩

theorem Uses.mono {P' : M.Op → Prop} (h : Uses P p) (hP : ∀ o, P o → P' o) : Uses P' p := by
  induction p with
  | pure a => trivial
  | op o k ih => exact ⟨hP o h.1, fun r => ih r (h.2 r)⟩

/-- What each of the operations keeps, the program keeps. -/
theorem Uses.wp {R : M.State → M.State → Prop} (h : Uses P p) (hrefl : ∀ s, R s s)
    (htrans : ∀ s1 s2 s3, R s1 s2 → R s2 s3 → R s1 s3) (hstep : ∀ o c s, P o → A c → R s (M.step o c s).2) :
    WP A p s (fun _ s' => R s s') (fun o s' => R s s' ∧ P o) := by
  induction p generalizing s with
  | pure a => exact hrefl s
  | op o k ih =>
    refine ⟨⟨hrefl s, h.1⟩, fun c hc => ?_⟩
    have h1 := hstep o c s h.1 hc
    exact (ih _ (h.2 _)).mono (fun _ s' h2 => htrans _ _ _ h1 h2) fun _ s' h2 => ⟨htrans _ _ _ h1 h2.1, h2.2⟩

end

/-- Whatever the operations answer, the result satisfies `P`. -/
def Yields (P : α → Prop) : Prog M α → Prop
  | .pure a => P a
  | .op _ k => ∀ r, Yields P (k r)

theorem Yields.bind {P : α → Prop} {Q : β → Prop} {p : Prog M α} {f : α → Prog M β} (h : Yields P p)
    (hf : ∀ a, P a → Yields Q (f a)) : Yields Q (p >>= f) := by
  induction p with
  | pure a => exact hf a h
  | op o k ih => exact fun r => ih r (h r)

theorem Yields.all (p : Prog M α) : Yields (fun _ => True) p := by
  induction p with
  | pure a => trivial
  | op o k ih => exact ih

theorem Yields.exec {P : α → Prop} {p : Prog M α} (h : Yields P p) (σ : Nat → M.Choice) (s : M.State) :
    P (p.exec σ s).1 := by
  induction p generalizing σ s with
  | pure a => exact h
  | op o k ih => exact ih _ (h _) _ _

/-- The program makes at most `n` operations, all of them in `P`. -/
def Bounded (P : M.Op → Prop) : Nat → Prog M α → Prop
  | _, .pure _ => True
  | 0, .op _ _ => False
  | n + 1, .op o k => P o ∧ ∀ r, Bounded P n (k r)

section

variable {P : M.Op → Prop} {p : Prog M α} {m n : Nat}

theorem Bounded.pure (a : α) : Bounded P n (Pure.pure a : Prog M α) := by
  cases n <;> trivial

theorem Bounded.call {o : M.Op} (h : P o) : Bounded P 1 (Prog.call o) := ⟨h, fun _ => trivial⟩

theorem Bounded.mono (h : Bounded P m p) (hn : m ≤ n) : Bounded P n p := by
  induction p generalizing m n with
  | pure a => exact .pure a
  | op o k ih =>
    obtain _ | m := m
    · exact h.elim
    · obtain ⟨n, rfl⟩ := Nat.exists_eq_add_of_lt hn
      exact ⟨h.1, fun r => ih r (h.2 r) (by omega)⟩

theorem Bounded.bind {f : α → Prog M β} (h : Bounded P m p) (hf : ∀ a, Bounded P n (f a)) :
    Bounded P (m + n) (p >>= f) := by
  induction p generalizing m with
  | pure a => exact (hf a).mono (Nat.le_add_left n m)
  | op o k ih =>
    obtain _ | m := m
    · exact h.elim
    · rw [Nat.succ_add]
      exact ⟨h.1, fun r => ih r (h.2 r)⟩

end

/-! ## Programs that only read -/

namespace Prog

/-- The result of a program when each choice is `c`. -/
def value (c : M.Choice) (p : Prog M α) (s : M.State) : α := (p.exec (fun _ => c) s).1

variable {c : M.Choice} {R : M.Op → Prop} (hkeep : ∀ o, R o → ∀ s, (M.step o c s).2 = s)

include hkeep

theorem value_op {o : M.Op} (h : R o) (k : M.Ret o → Prog M α) (s : M.State) :
    value c (.op o k) s = value c (k (M.step o c s).1) s := by
  have heq : value c (.op o k) s = ((k (M.step o c s).1).exec (fun _ => c) (M.step o c s).2).1 := rfl
  rw [heq, hkeep o h]
  rfl

theorem value_bind {p : Prog M α} (h : Uses R p) (f : α → Prog M β) (s : M.State) :
    value c (p >>= f) s = value c (f (value c p s)) s := by
  induction p with
  | pure a => rfl
  | op o k ih =>
    have heq : (Prog.op o k >>= f) = .op o fun r => k r >>= f := rfl
    rw [heq, value_op hkeep h.1, value_op hkeep h.1, ih _ (h.2 _)]

/-- All runs are the same, if the choices make no difference. -/
theorem exec_reads {A : M.Choice → Prop} (hsame : ∀ o, R o → ∀ c', A c' → ∀ s, M.step o c' s = M.step o c s)
    {p : Prog M α} (h : Uses R p) {σ : Nat → M.Choice} (hσ : ∀ n, A (σ n)) (s : M.State) :
    p.exec σ s = (value c p s, s) := by
  induction p generalizing σ with
  | pure a => rfl
  | op o k ih =>
    have heq : (Prog.op o k).exec σ s =
        (k (M.step o (σ 0) s).1).exec (fun n => σ (n + 1)) (M.step o (σ 0) s).2 := rfl
    rw [heq, hsame o h.1 _ (hσ 0) s, hkeep o h.1, value_op hkeep h.1]
    exact ih _ (h.2 _) fun n => hσ (n + 1)

end Prog

end Lorica

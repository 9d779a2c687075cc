import Mathlib

/-!
# The descriptors of a process

What each descriptor of a process refers to, if it is open. A descriptor that is opened is the
lowest one that is free, so that it is none of those that are open (`get_lowest`).
-/

namespace Lorica

structure Descriptors (α : Type) where
  get : Nat → Option α
  bound : Nat
  above : ∀ n, bound ≤ n → get n = none

namespace Descriptors

variable {α : Type} (t : Descriptors α) (f : α) (n m : Nat)

theorem exists_free : ∃ n, (t.get n).isNone = true := ⟨t.bound, by rw [t.above _ (Nat.le_refl _)]; rfl⟩

/-- The lowest descriptor that is free. -/
def lowest : Nat := Nat.find t.exists_free

def put (o : Option α) : Descriptors α where
  get := Function.update t.get n o
  bound := max t.bound (n + 1)
  above m hm := by
    rw [Function.update_of_ne (by omega), t.above m (by omega)]

def close : Descriptors α := t.put n none

/-- A new descriptor for a file. -/
def alloc : Nat × Descriptors α := (t.lowest, t.put t.lowest (some f))

/-- `dup`, which fails for a descriptor that is not open. -/
def dup : Option Nat × Descriptors α :=
  ((t.get n).map fun _ => t.lowest, ((t.get n).map fun f => t.put t.lowest (some f)).getD t)

/-- `dup2`, which does nothing for a descriptor that is not open. -/
def dup2 : Descriptors α := if (t.get n).isSome then t.put m (t.get n) else t

/-- The two ends of a pipe. -/
def pipe (r w : α) : (Nat × Nat) × Descriptors α :=
  (((t.alloc r).1, ((t.alloc r).2.alloc w).1), ((t.alloc r).2.alloc w).2)

def closeAll (ns : List Nat) : Descriptors α := ns.foldl close t

variable {t f n m}

theorem get_lowest : t.get t.lowest = none := Option.isNone_iff_eq_none.mp (Nat.find_spec t.exists_free)

@[simp] theorem get_put (o : Option α) (k : Nat) : (t.put n o).get k = if k = n then o else t.get k :=
  Function.update_apply _ _ _ _

@[simp] theorem get_close (k : Nat) : (t.close n).get k = if k = n then none else t.get k := get_put none k

theorem ne_lowest (h : (t.get n).isSome = true) : n ≠ t.lowest := by
  rintro rfl
  rw [get_lowest] at h
  exact absurd h Bool.false_ne_true

theorem get_alloc (k : Nat) : (t.alloc f).2.get k = if k = t.lowest then some f else t.get k := get_put _ _

/-- The ends of a pipe are two descriptors that were free. -/
theorem pipe_spec (a b : α) : (t.pipe a b).1.1 ≠ (t.pipe a b).1.2 ∧ t.get (t.pipe a b).1.1 = none ∧
    t.get (t.pipe a b).1.2 = none ∧ ∀ k, (t.pipe a b).2.get k =
      if k = (t.pipe a b).1.2 then some b else if k = (t.pipe a b).1.1 then some a else t.get k := by
  have hne : t.lowest ≠ (t.alloc a).2.lowest := ne_lowest (by rw [get_alloc, if_pos rfl]; rfl)
  have hfree : t.get (t.alloc a).2.lowest = none := by
    rw [← get_lowest (t := (t.alloc a).2), get_alloc, if_neg hne.symm]
  refine ⟨hne, get_lowest, hfree, fun k => ?_⟩
  rw [pipe, get_alloc, get_alloc]
  rfl

theorem get_closeAll (ns : List Nat) (k : Nat) : (t.closeAll ns).get k = if k ∈ ns then none else t.get k := by
  induction ns generalizing t with
  | nil => rfl
  | cons n ns ih =>
    rw [closeAll, List.foldl_cons, ← closeAll, ih]
    by_cases hn : k = n
    · simp [hn]
    · simp [hn]

end Descriptors

end Lorica

import Mathlib

/-!
# Undo logs

A store is a map from keys to what they hold, if anything. An undo log has, for
every key that is changed, an entry with what the key held. `replay` writes the
old values back, the first entry first.

`Recoverable orig log m`: the log tells the truth about `orig`, and `m` differs
from `orig` at logged keys only. It starts with an empty log, and is kept by
logging a key before it is first changed (`record`) and by changing logged keys
in any way (`poke`), also in the middle of a replay. `replay_eq`: from a
recoverable store a replay gets back to `orig`.
-/

namespace Lorica.UndoLog

open List

variable {K V : Type}

/-- A key and what it held. -/
structure Entry (K V : Type) where
  key : K
  old : Option V

/-- The store with the old value of one entry written back. -/
def restore [DecidableEq K] (m : K → Option V) (e : Entry K V) : K → Option V :=
  Function.update m e.key e.old

def replay [DecidableEq K] (log : List (Entry K V)) (m : K → Option V) : K → Option V :=
  log.foldl restore m

structure Recoverable (orig : K → Option V) (log : List (Entry K V)) (m : K → Option V) : Prop where
  old : ∀ e ∈ log, e.old = orig e.key
  rest : ∀ k, (∀ e ∈ log, e.key ≠ k) → m k = orig k

variable {orig m m' : K → Option V} {log : List (Entry K V)} {e : Entry K V} {k : K}

theorem Recoverable.nil (m : K → Option V) : Recoverable m [] m := ⟨forall_mem_nil _, fun _ _ => rfl⟩

/-- A key that has not been changed can be logged. -/
theorem Recoverable.record (h : Recoverable orig log m) (hk : m k = orig k) :
    Recoverable orig (log ++ [⟨k, m k⟩]) m where
  old e he := by
    rcases mem_append.mp he with he | he
    · exact h.old e he
    · rw [mem_singleton.mp he]; exact hk
  rest j hj := h.rest j fun e he => hj e (mem_append_left _ he)

/-- A key that is logged can be changed. -/
theorem Recoverable.poke (h : Recoverable orig log m) (he : e ∈ log) (hm : ∀ k, k ≠ e.key → m' k = m k) :
    Recoverable orig log m' where
  old := h.old
  rest k hk := by
    rw [hm k (Ne.symm (hk e he))]
    exact h.rest k hk

theorem Recoverable.replay_eq [DecidableEq K] (h : Recoverable orig log m) : replay log m = orig := by
  induction log generalizing m with
  | nil => exact funext fun k => h.rest k (forall_mem_nil _)
  | cons e log ih =>
    refine ih ⟨fun e' he' => h.old e' (mem_cons_of_mem _ he'), fun k hk => ?_⟩
    by_cases hke : k = e.key
    · subst hke
      rw [restore, Function.update_self]
      exact h.old e mem_cons_self
    · rw [restore, Function.update_of_ne hke]
      refine h.rest k fun e' he' => ?_
      rcases mem_cons.mp he' with rfl | he'
      · exact Ne.symm hke
      · exact hk e' he'

end Lorica.UndoLog

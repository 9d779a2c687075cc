import Mathlib

/-!
# Queueing things behind what they depend on

`visit` queues the thing of a name behind the things its own names (`deps`) lead to,
depth first. `look` says what a name leads to: an error, nothing to queue, or a thing.
A thing is put at the end of the queue before its dependencies are visited, so that
a cycle ends, and is moved behind them afterwards.

`visitEach_queued` is what a queue satisfies: names are not repeated, at most `max`
things are queued, every dependency is queued or needs nothing, and a thing that
stands before one of its dependencies is on a cycle (`Queued.after_deps`).
`visitEach_returns`: a recursion of depth `max + 1` is enough.
-/

namespace Lorica.Postorder

open List

variable {N A : Type} (name : A → N) (deps : A → List N) (look : N → Option (Option A)) (max : Nat)

/-- Visit each name of a list, until one fails. -/
def visitEach (visit : N → List A → Option (Option (List A))) : List N → List A → Option (Option (List A))
  | [], q => some (some q)
  | n :: ns, q =>
    match visit n q with
    | some (some q) => visitEach visit ns q
    | r => r

/-- The queue after `n` has been visited: `some none` is an error, and `none` a
recursion deeper than `fuel`. -/
def visit [DecidableEq N] : Nat → N → List A → Option (Option (List A))
  | 0, _, _ => none
  | fuel + 1, n, q =>
    if n ∈ q.map name then some (some q)
    else
      match look n with
      | none => some none
      | some none => some (some q)
      | some (some a) =>
        if max ≤ q.length then some none
        else
          match visitEach (visit fuel) (deps a) (q ++ [a]) with
          | some (some q') => some (some (q'.eraseIdx q.length ++ [a]))
          | r => r

variable {name deps look max} {fuel : Nat} {n : N} {ns : List N} {q q' new : List A} {a b : A}

/-- `a` depends on `b`, which is in the queue. -/
def Dep (name : A → N) (deps : A → List N) (q : List A) (a b : A) : Prop := b ∈ q ∧ name b ∈ deps a

theorem Dep.mono (h : ∀ x ∈ q, x ∈ q') (hd : Dep name deps q a b) : Dep name deps q' a b := ⟨h b hd.1, hd.2⟩

theorem dep_trans_mono (h : ∀ x ∈ q, x ∈ q') (hd : Relation.TransGen (Dep name deps q) a b) :
    Relation.TransGen (Dep name deps q') a b :=
  Relation.TransGen.mono (fun _ _ => Dep.mono h) _ _ hd

/-- What has come to the queue `q` when it is `q ++ new`. -/
structure Queued (name : A → N) (deps : A → List N) (look : N → Option (Option A)) (max : Nat)
    (ns : List N) (q new : List A) : Prop where
  nodup : (q.map name).Nodup → ((q ++ new).map name).Nodup
  length : q.length ≤ max → (q ++ new).length ≤ max
  looked : ∀ a ∈ new, look (name a) = some (some a)
  /-- What was visited is queued, or needs nothing. -/
  roots : ∀ n ∈ ns, n ∈ (q ++ new).map name ∨ look n = some none
  closed : ∀ a ∈ new, ∀ d ∈ deps a, d ∈ (q ++ new).map name ∨ look d = some none
  /-- All of it has been reached from what was visited. -/
  reached : ∀ b ∈ new, ∃ a ∈ new, name a ∈ ns ∧ Relation.ReflTransGen (Dep name deps (q ++ new)) a b
  order : new.Pairwise fun a b => name b ∈ deps a → Relation.TransGen (Dep name deps (q ++ new)) a a

namespace Queued

theorem nil (hns : ∀ n ∈ ns, n ∈ q.map name ∨ look n = some none) : Queued name deps look max ns q [] where
  nodup h := by simpa using h
  length h := by simpa using h
  looked := forall_mem_nil _
  roots n hn := by simpa using hns n hn
  closed := forall_mem_nil _
  reached := forall_mem_nil _
  order := .nil

/-- One name after the other. -/
theorem append {new' : List A} (h : Queued name deps look max [n] q new)
    (h' : Queued name deps look max ns (q ++ new) new') (hq : (q.map name).Nodup) :
    Queued name deps look max (n :: ns) q (new ++ new') where
  nodup hq := by rw [← append_assoc]; exact h'.nodup (h.nodup hq)
  length hl := by rw [← append_assoc]; exact h'.length (h.length hl)
  looked a ha := (mem_append.mp ha).elim (h.looked a) (h'.looked a)
  roots m hm := by
    rw [← append_assoc]
    rcases mem_cons.mp hm with rfl | hm
    · exact (h.roots m mem_cons_self).imp_left fun hm => by
        rw [map_append]; exact mem_append_left _ hm
    · exact h'.roots m hm
  closed a ha d hd := by
    rw [← append_assoc]
    rcases mem_append.mp ha with ha | ha
    · exact (h.closed a ha d hd).imp_left fun hm => by rw [map_append]; exact mem_append_left _ hm
    · exact h'.closed a ha d hd
  reached b hb := by
    have hsub : ∀ x ∈ q ++ new, x ∈ q ++ (new ++ new') := fun x hx => by
      rw [← append_assoc]; exact mem_append_left _ hx
    rcases mem_append.mp hb with hb | hb
    · obtain ⟨a, ha, hn, hr⟩ := h.reached b hb
      exact ⟨a, mem_append_left _ ha, mem_cons.mpr (.inl (by simpa using hn)),
        Relation.ReflTransGen.mono (fun _ _ => Dep.mono hsub) _ _ hr⟩
    · obtain ⟨a, ha, hn, hr⟩ := h'.reached b hb
      rw [append_assoc] at hr
      exact ⟨a, mem_append_right _ ha, mem_cons_of_mem _ hn, hr⟩
  order := by
    have hsub : ∀ x ∈ q ++ new, x ∈ q ++ (new ++ new') := fun x hx => by
      rw [← append_assoc]; exact mem_append_left _ hx
    refine pairwise_append.mpr ⟨h.order.imp fun hab hd => dep_trans_mono hsub (hab hd), ?_, ?_⟩
    · have := h'.order
      rwa [append_assoc] at this
    · -- what came later is no dependency of what came before: all of these were queued
      intro a ha b hb hd
      exfalso
      have hnd := h'.nodup (h.nodup hq)
      rw [map_append, nodup_append] at hnd
      rcases h.closed a ha _ hd with hm | hm
      · exact hnd.2.2 _ hm _ (mem_map_of_mem hb) rfl
      · rw [h'.looked b hb] at hm
        cases hm

/-- A thing behind its dependencies. -/
theorem place (hn : n ∉ q.map name) (hlook : look n = some (some a)) (hname : name a = n) (hlen : q.length < max)
    (h : Queued name deps look max (deps a) (q ++ [a]) new) : Queued name deps look max [n] q (new ++ [a]) := by
  have hperm : (q ++ [a] ++ new).Perm (q ++ (new ++ [a])) := by
    rw [append_assoc]
    exact List.Perm.append_left _ perm_append_comm
  have hmem : ∀ d, d ∈ (q ++ [a] ++ new).map name ↔ d ∈ (q ++ (new ++ [a])).map name := fun d =>
    (hperm.map name).mem_iff
  have hsub : ∀ x ∈ q ++ [a] ++ new, x ∈ q ++ (new ++ [a]) := fun x hx => hperm.mem_iff.mp hx
  have hreach : ∀ b ∈ new, Relation.TransGen (Dep name deps (q ++ (new ++ [a]))) a b := fun b hb => by
    obtain ⟨c, hc, hd, hr⟩ := h.reached b hb
    exact .head' (.mono hsub ⟨mem_append_right _ hc, hd⟩) (Relation.ReflTransGen.mono (fun _ _ => Dep.mono hsub) _ _ hr)
  have hself : a ∈ q ++ (new ++ [a]) := by simp
  refine ⟨fun hq => ?_, fun _ => ?_, fun b hb => ?_, fun m hm => ?_, fun b hb d hd => ?_, fun b hb => ?_, ?_⟩
  · rw [← (hperm.map name).nodup_iff]
    refine h.nodup ?_
    rw [map_append, nodup_append]
    refine ⟨hq, by simp, fun x hx y hy => ?_⟩
    rw [map_singleton, mem_singleton, hname] at hy
    rintro rfl
    exact hn (hy ▸ hx)
  · rw [← hperm.length_eq]
    exact h.length (by rw [length_append, length_singleton]; omega)
  · rcases mem_append.mp hb with hb | hb
    · exact h.looked b hb
    · rw [mem_singleton.mp hb, hname, hlook]
  · rw [mem_singleton.mp hm, ← hname]
    exact .inl (mem_map_of_mem hself)
  · rcases mem_append.mp hb with hb | hb
    · exact (h.closed b hb d hd).imp_left (hmem d).mp
    · rw [mem_singleton.mp hb] at hd
      exact (h.roots d hd).imp_left (hmem d).mp
  · refine ⟨a, by simp, by simp [hname], ?_⟩
    rcases mem_append.mp hb with hb | hb
    · exact (hreach b hb).to_reflTransGen
    · rw [mem_singleton.mp hb]
  · refine pairwise_append.mpr ⟨h.order.imp fun hab hd => dep_trans_mono hsub (hab hd),
      pairwise_singleton .., fun b hb c hc hd => ?_⟩
    -- `b` depends on `a`, from which it was reached
    rw [mem_singleton.mp hc] at hd
    exact .head ⟨hself, hd⟩ (hreach b hb)

end Queued

theorem visitEach_queued_of {visit : N → List A → Option (Option (List A))}
    (h : ∀ n q q', (q.map name).Nodup → visit n q = some (some q') →
      ∃ new, q' = q ++ new ∧ Queued name deps look max [n] q new)
    (hq : (q.map name).Nodup) (hv : visitEach visit ns q = some (some q')) :
    ∃ new, q' = q ++ new ∧ Queued name deps look max ns q new := by
  induction ns generalizing q with
  | nil =>
    cases hv
    exact ⟨[], by simp, .nil (forall_mem_nil _)⟩
  | cons n ns ih =>
    rw [visitEach] at hv
    split at hv
    · rename_i q1 hn
      obtain ⟨new, rfl, h1⟩ := h n q q1 hq hn
      obtain ⟨new', rfl, h2⟩ := ih (h1.nodup hq) hv
      exact ⟨new ++ new', by rw [append_assoc], h1.append h2 hq⟩
    · rename_i hr
      exact absurd hv (hr q')

section

variable [DecidableEq N] (hname : ∀ n a, look n = some (some a) → name a = n)

include hname

theorem visit_queued (hq : (q.map name).Nodup) (hv : visit name deps look max fuel n q = some (some q')) :
    ∃ new, q' = q ++ new ∧ Queued name deps look max [n] q new := by
  induction fuel generalizing n q q' with
  | zero => cases hv
  | succ fuel ih =>
    rw [visit] at hv
    split at hv
    · rename_i hmem
      cases hv
      exact ⟨[], by simp, .nil fun m hm => .inl (mem_singleton.mp hm ▸ hmem)⟩
    rename_i hmem
    cases hlook : look n with
    | none => simp [hlook] at hv
    | some r =>
      cases r with
      | none =>
        simp only [hlook, Option.some.injEq] at hv
        subst hv
        exact ⟨[], by simp, .nil fun m hm => .inr (mem_singleton.mp hm ▸ hlook)⟩
      | some a =>
        simp only [hlook] at hv
        split at hv
        · cases hv
        have hnd : ((q ++ [a]).map name).Nodup := by
          rw [map_append, nodup_append]
          refine ⟨hq, by simp, fun x hx y hy => ?_⟩
          rw [map_singleton, mem_singleton, hname n a hlook] at hy
          rintro rfl
          exact hmem (hy ▸ hx)
        split at hv
        · rename_i q1 he
          obtain ⟨new, rfl, h1⟩ := visitEach_queued_of (fun n q q' hq hv => ih hq hv) hnd he
          simp only [Option.some.injEq] at hv
          refine ⟨new ++ [a], ?_, .place hmem hlook (hname n a hlook) (by omega) h1⟩
          rw [← hv, append_assoc, singleton_append, eraseIdx_append_of_length_le (le_refl _),
            Nat.sub_self, eraseIdx_cons_zero, append_assoc]
        · rename_i hr
          exact absurd hv (hr q')

/-- A queue that has been built by visiting the names `ns`. -/
theorem visitEach_queued (hv : visitEach (visit name deps look max fuel) ns [] = some (some q)) :
    Queued name deps look max ns [] q := by
  obtain ⟨new, rfl, h⟩ := visitEach_queued_of (fun n q q' hq hv => visit_queued hname hq hv)
    (by simp) hv
  exact h

end

/-- A result, and if it is a queue, one that has not become shorter. -/
def Returns (max : Nat) (q : List A) (r : Option (Option (List A))) : Prop :=
  ∃ r', r = some r' ∧ ∀ q', r' = some q' → q.length ≤ q'.length ∧ q'.length ≤ max

theorem visitEach_returns_of {visit : N → List A → Option (Option (List A))} {k : Nat}
    (h : ∀ n q, k ≤ q.length → q.length ≤ max → Returns max q (visit n q)) (hk : k ≤ q.length)
    (hm : q.length ≤ max) : Returns max q (visitEach visit ns q) := by
  induction ns generalizing q with
  | nil => exact ⟨some q, rfl, fun q' hq' => by cases hq'; exact ⟨le_refl _, hm⟩⟩
  | cons n ns ih =>
    obtain ⟨r, hr, hlen⟩ := h n q hk hm
    rw [visitEach, hr]
    cases r with
    | none => exact ⟨none, rfl, fun q' hq' => by cases hq'⟩
    | some q1 =>
      have h1 := hlen q1 rfl
      obtain ⟨r, hr, hlen'⟩ := ih (q := q1) (by omega) h1.2
      exact ⟨r, hr, fun q' hq' => ⟨le_trans h1.1 (hlen' q' hq').1, (hlen' q' hq').2⟩⟩

/-- Each level of the recursion has queued one thing more. -/
theorem visit_returns [DecidableEq N] (hf : max < fuel + q.length) (hm : q.length ≤ max) :
    Returns max q (visit name deps look max fuel n q) := by
  induction fuel generalizing n q with
  | zero => omega
  | succ fuel ih =>
    have hstay : Returns max q (some (some q)) := ⟨_, rfl, fun q' hq' => by cases hq'; exact ⟨le_refl _, hm⟩⟩
    have hfail : Returns max q (some none) := ⟨_, rfl, fun q' hq' => by cases hq'⟩
    rw [visit]
    split
    · exact hstay
    split
    · exact hfail
    · exact hstay
    · rename_i a _
      split
      · exact hfail
      · have hlen : (q ++ [a]).length = q.length + 1 := length_append
        have hdeps : Returns max (q ++ [a]) (visitEach (visit name deps look max fuel) (deps a) (q ++ [a])) :=
          visitEach_returns_of (k := q.length + 1) (fun n q' hk hm' => ih (by omega) hm')
            (le_of_eq hlen.symm) (by omega)
        obtain ⟨r, hr, hr'⟩ := hdeps
        rw [hr]
        cases r with
        | none => exact hfail
        | some q1 =>
          have h1 := hr' q1 rfl
          refine ⟨_, rfl, fun q' hq' => ?_⟩
          cases hq'
          rw [length_append, length_eraseIdx_of_lt (by omega), length_singleton]
          omega

theorem visitEach_returns [DecidableEq N] (hf : max < fuel) :
    ∃ r, visitEach (visit name deps look max fuel) ns [] = some r := by
  have h : Returns max [] (visitEach (visit name deps look max fuel) ns []) :=
    visitEach_returns_of (k := 0) (fun n q _ hm => visit_returns (by omega) hm) (le_refl 0) (Nat.zero_le max)
  obtain ⟨r, hr, -⟩ := h
  exact ⟨r, hr⟩

/-- Without cycles, a thing stands behind all its dependencies. -/
theorem Queued.after_deps (h : Queued name deps look max ns [] q)
    (hac : ∀ a ∈ q, ¬ Relation.TransGen (Dep name deps q) a a) {i j : Nat} (hi : i < q.length) (hj : j < q.length)
    (hd : name q[j] ∈ deps q[i]) : j < i := by
  have hcyc := hac q[i] (getElem_mem hi)
  rcases lt_trichotomy j i with hlt | heq | hgt
  · exact hlt
  · subst heq
    exact absurd (.single ⟨getElem_mem hi, hd⟩) hcyc
  · exact absurd (pairwise_iff_getElem.mp h.order i j hi hj hgt hd) hcyc

end Lorica.Postorder

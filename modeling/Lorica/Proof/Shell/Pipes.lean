import Lorica.Impl.Shell.Main

/-!
# The pipes of a pipeline

What a parent has open while it sets up a pipeline is what it had before, and the ends of the pipes it
has made (`Made`). To close all of these gives its descriptors back (`Made.clean`). Both routines of
stsh always do; sh does not where a child after the first cannot be forked: `pipelines_clean_iff`.
-/

namespace Lorica.Proof.Shell

open Lorica.Impl.Stsh List

variable {base : Descriptors File} {p : Parent} {fails : Fails} {k n : Nat}

/-- The parent has waited only with all ends of pipes closed, and its descriptors are as they were. -/
structure Clean (base : Descriptors File) (p : Parent) : Prop where
  held : ∀ es, p.held = some es → es = []
  same : ∀ n, p.fds.get n = base.get n

/-- The parent has made its pipes, and not waited yet. -/
structure Made (base : Descriptors File) (p : Parent) : Prop where
  nodup : (ends p.pipes).Nodup
  free : ∀ e ∈ ends p.pipes, base.get e = none
  opened : ∀ e ∈ ends p.pipes, (p.fds.get e).isSome = true
  same : ∀ n, n ∉ ends p.pipes → p.fds.get n = base.get n
  fresh : p.held = none

theorem ends_append (ps qs : List (Nat × Nat)) : ends (ps ++ qs) = ends ps ++ ends qs := flatMap_append

theorem made_start (base : Descriptors File) : Made base (.start base) where
  nodup := nodup_nil
  free _ h := absurd h not_mem_nil
  opened _ h := absurd h not_mem_nil
  same _ _ := rfl
  fresh := rfl

theorem Made.fork (h : Made base p) : Made base p.fork := ⟨h.nodup, h.free, h.opened, h.same, h.fresh⟩

/-- The ends of a new pipe were free. -/
theorem Made.pipe (h : Made base p) : Made base p.pipe := by
  obtain ⟨hne, hr, hw, hget⟩ :=
    Descriptors.pipe_spec (t := p.fds) (.pipe p.pipes.length false) (.pipe p.pipes.length true)
  generalize hq : p.fds.pipe (.pipe p.pipes.length false) (.pipe p.pipes.length true) = q at hne hr hw hget
  have hpipe : p.pipe = { p with fds := q.2, pipes := p.pipes ++ [q.1] } := by rw [← hq]; rfl
  have hends : ends p.pipe.pipes = ends p.pipes ++ [q.1.1, q.1.2] := by rw [hpipe, ends_append]; rfl
  -- an end that was free is none of those made before
  have hnew : ∀ e, p.fds.get e = none → e ∉ ends p.pipes := by
    intro e he hmem
    have hopen := h.opened e hmem
    rw [he] at hopen
    exact absurd hopen Bool.false_ne_true
  refine ⟨?_, ?_, ?_, ?_, ?_⟩
  · rw [hends, nodup_append]
    refine ⟨h.nodup, by simp [hne], fun a ha b hb => ?_⟩
    rintro rfl
    simp only [mem_cons, not_mem_nil, or_false] at hb
    obtain rfl | rfl := hb
    · exact hnew _ hr ha
    · exact hnew _ hw ha
  · intro e he
    rw [hends] at he
    simp only [mem_append, mem_cons, not_mem_nil, or_false] at he
    obtain he | rfl | rfl := he
    · exact h.free e he
    · rw [← h.same _ (hnew _ hr), hr]
    · rw [← h.same _ (hnew _ hw), hw]
  · intro e he
    rw [hends] at he
    simp only [mem_append, mem_cons, not_mem_nil, or_false] at he
    rw [hpipe]
    show (q.2.get e).isSome = true
    rw [hget]
    split
    · rfl
    split
    · rfl
    · rename_i hw hr
      exact h.opened e (he.resolve_right fun he => he.elim hr hw)
  · intro n hn
    rw [hends] at hn
    simp only [mem_append, mem_cons, not_mem_nil, or_false, not_or] at hn
    rw [hpipe]
    show q.2.get n = base.get n
    rw [hget, if_neg hn.2.2, if_neg hn.2.1, h.same n hn.1]
  · exact h.fresh

theorem get_closePipes (ps : List (Nat × Nat)) (n : Nat) :
    (p.closePipes ps).fds.get n = if n ∈ ends ps then none else p.fds.get n := Descriptors.get_closeAll _ _

/-- With all its ends closed, the parent has the descriptors it had. -/
theorem Made.get_closed (h : Made base p) (n : Nat) : (p.closePipes p.pipes).fds.get n = base.get n := by
  rw [get_closePipes]
  split
  · rename_i hmem
    rw [h.free n hmem]
  · rename_i hmem
    rw [h.same n hmem]

/-! ## Waiting -/

theorem waitAll_fds (p : Parent) : p.waitAll.fds = p.fds := by
  have h : ∀ k (p : Parent), (Parent.wait^[k] p).fds = p.fds := by
    intro k
    induction k with
    | zero => exact fun _ => rfl
    | succ k ih => exact fun p => ih p.wait
  exact h p.children p

theorem waitAll_held (h : p.held = none) : p.waitAll.held = none ∨
    p.waitAll.held = some ((ends p.pipes).filter fun e => (p.fds.get e).isSome) := by
  have hstay : ∀ k (p : Parent) es, p.held = some es → (Parent.wait^[k] p).held = some es := by
    intro k
    induction k with
    | zero => exact fun _ _ h => h
    | succ k ih => exact fun p es h => ih p.wait es (by rw [Parent.wait, h]; rfl)
  unfold Parent.waitAll
  cases p.children with
  | zero => exact .inl h
  | succ k => exact .inr (hstay k p.wait _ (by rw [Parent.wait, h]; rfl))

theorem Made.clean (h : Made base p) : Clean base (p.closePipes p.pipes) where
  held es hes := by
    have hfresh : p.held = some es := hes
    rw [h.fresh] at hfresh
    exact absurd hfresh (by simp)
  same := h.get_closed

theorem Made.clean_wait (h : Made base p) : Clean base (p.closePipes p.pipes).waitAll where
  held es hes := by
    obtain hnone | hsome := waitAll_held (p := p.closePipes p.pipes) h.fresh
    · rw [hnone] at hes
      exact absurd hes (by simp)
    · rw [hsome] at hes
      rw [← Option.some.inj hes, filter_eq_nil_iff]
      intro e he
      rw [h.get_closed, h.free e he]
      simp
  same n := by
    rw [waitAll_fds]
    exact h.get_closed n

/-! ## The two loops -/

/-- Either all pipes are made, or one cannot be and nothing is left of the others. -/
theorem createPipes_cases (fails : Fails) (h : Made base p) (k : Nat) :
    (∃ p', p.createPipes fails k = (true, p') ∧ Made base p' ∧ p'.pipes.length = p.pipes.length + k ∧
      p'.children = p.children ∧ ∀ i, p.pipes.length ≤ i → i < p.pipes.length + k → fails.pipe i = false) ∨
    ∃ p', p.createPipes fails k = (false, p') ∧ Clean base p' ∧
      ∃ i, p.pipes.length ≤ i ∧ i < p.pipes.length + k ∧ fails.pipe i = true := by
  induction k generalizing p with
  | zero => exact .inl ⟨p, rfl, h, rfl, rfl, fun i hle hlt => absurd hlt (by omega)⟩
  | succ k ih =>
    rw [Parent.createPipes]
    by_cases hfail : fails.pipe p.pipes.length = true
    · rw [if_pos hfail]
      exact .inr ⟨_, rfl, h.clean, p.pipes.length, Nat.le_refl _, by omega, hfail⟩
    · rw [if_neg hfail]
      have hlen : p.pipe.pipes.length = p.pipes.length + 1 := length_append
      obtain ⟨p', heq, hmade, hlen', hchildren, hnone⟩ | ⟨p', heq, hclean, i, hle, hlt, hi⟩ := ih h.pipe
      · refine .inl ⟨p', heq, hmade, by omega, hchildren, fun i hle hlt => ?_⟩
        obtain rfl | hgt := Nat.eq_or_lt_of_le hle
        · simpa using hfail
        · exact hnone i (by omega) (by omega)
      · exact .inr ⟨p', heq, hclean, i, by omega, by omega, hi⟩

/-- Either all children are forked, or the first that cannot be is given up. -/
theorem forkAll_cases (fails : Fails) (giveUp : Parent → Parent) (h : Made base p) (k : Nat) :
    (∃ p', p.forkAll fails giveUp k = (true, p') ∧ Made base p' ∧
      ∀ i, p.children ≤ i → i < p.children + k → fails.fork i = false) ∨
    ∃ p', p.forkAll fails giveUp k = (false, giveUp p') ∧ Made base p' ∧ p'.pipes = p.pipes ∧
      p.children ≤ p'.children ∧ p'.children < p.children + k ∧ fails.fork p'.children = true ∧
      ∀ i, p.children ≤ i → i < p'.children → fails.fork i = false := by
  induction k generalizing p with
  | zero => exact .inl ⟨p, rfl, h, fun i hle hlt => absurd hlt (by omega)⟩
  | succ k ih =>
    rw [Parent.forkAll]
    by_cases hfail : fails.fork p.children = true
    · rw [if_pos hfail]
      exact .inr ⟨p, rfl, h, rfl, Nat.le_refl _, by omega, hfail, fun i hle hlt => absurd hlt (by omega)⟩
    · rw [if_neg hfail]
      have hchildren : p.fork.children = p.children + 1 := rfl
      obtain ⟨p', heq, hmade, hnone⟩ | ⟨p', heq, hmade, hpipes, hle', hlt', hi, hnone⟩ := ih h.fork
      · refine .inl ⟨p', heq, hmade, fun i hle hlt => ?_⟩
        obtain rfl | hgt := Nat.eq_or_lt_of_le hle
        · simpa using hfail
        · exact hnone i (by omega) (by omega)
      · refine .inr ⟨p', heq, hmade, hpipes, by omega, by omega, hi, fun i hle hlt => ?_⟩
        obtain rfl | hgt := Nat.eq_or_lt_of_le hle
        · simpa using hfail
        · exact hnone i (by omega) hlt

/-- A pipeline is clean if it is both where a child is given up and at its end. -/
theorem clean_startAll {giveUp finish : Parent → Parent} (hgive : ∀ p, Made base p → Clean base (giveUp p))
    (hfinish : ∀ p, Made base p → Clean base (finish p)) (n : Nat) :
    Clean base (if ((Parent.start base).startAll fails giveUp n).1 then
      finish ((Parent.start base).startAll fails giveUp n).2 else ((Parent.start base).startAll fails giveUp n).2) := by
  unfold Parent.startAll
  obtain ⟨p, heq, hmade, -⟩ | ⟨p, heq, hclean, -⟩ := createPipes_cases fails (made_start base) (n - 1)
  · rw [heq]
    obtain ⟨p', heq', hmade', -⟩ | ⟨p', heq', hmade', -⟩ := forkAll_cases fails giveUp hmade n
    · simp only [heq']
      exact hfinish p' hmade'
    · simp only [if_true, heq']
      exact hgive p' hmade'
  · rw [heq]
    exact hclean

/-! ## The two shells -/

theorem clean_runPipeline (base : Descriptors File) (fails : Fails) (n : Nat) :
    Clean base (runPipeline fails n (.start base)) := by
  unfold runPipeline
  split
  · exact ⟨fun es hes => absurd hes (by simp [Parent.start]), fun _ => rfl⟩
  · exact clean_startAll (fun _ h => h.clean_wait) (fun _ h => h.clean_wait) n

theorem clean_runPipelineBg (base : Descriptors File) (fails : Fails) (n : Nat) :
    Clean base (runPipelineBg fails n (.start base)) :=
  clean_startAll (fun _ h => h.clean) (fun _ h => h.clean) n

/-- What sh leaves open where a child after the first cannot be forked. -/
theorem not_clean_drop {i : Nat} (h : Made base p) (hi : 1 ≤ i) (hpipes : p.pipes ≠ []) :
    ¬Clean base (p.closePipes (p.pipes.drop i)).waitAll := by
  intro hclean
  obtain ⟨q, ps, hcons⟩ := exists_cons_of_ne_nil hpipes
  have hmem : q.1 ∈ ends p.pipes := by rw [hcons]; simp [ends]
  -- the first pipe is not among those that are closed, nor does it share an end with one
  have hnot : q.1 ∉ ends (p.pipes.drop i) := by
    intro hmem'
    have hnodup := h.nodup
    rw [hcons] at hnodup
    have hps : q.1 ∈ ends ps := by
      obtain ⟨j, rfl⟩ : ∃ j, i = j + 1 := ⟨i - 1, by omega⟩
      rw [hcons] at hmem'
      obtain ⟨e, he, hqe⟩ := mem_flatMap.mp hmem'
      exact mem_flatMap.mpr ⟨e, mem_of_mem_drop he, hqe⟩
    have hends : ends (q :: ps) = q.1 :: q.2 :: ends ps := rfl
    rw [hends, nodup_cons] at hnodup
    exact hnodup.1 (mem_cons_of_mem _ hps)
  have hget := hclean.same q.1
  rw [waitAll_fds, get_closePipes, if_neg hnot, h.free _ hmem] at hget
  have hopen := h.opened _ hmem
  rw [hget] at hopen
  exact Bool.false_ne_true hopen

/-- sh leaves pipes open, and waits with them open, just if all pipes are made and a child after the first is the
first that cannot be forked; stsh never does. -/
theorem pipelines_clean_iff (base : Descriptors File) (fails : Fails) (k n : Nat) :
    (Clean base (Impl.Shell.runPipeline fails (k + 1) (.start base)) ↔
      (∃ i < k, fails.pipe i = true) ∨ fails.fork 0 = true ∨ ∀ i, 1 ≤ i → i ≤ k → fails.fork i = false) ∧
    Clean base (runPipeline fails n (.start base)) ∧ Clean base (runPipelineBg fails n (.start base)) := by
  refine ⟨?_, clean_runPipeline base fails n, clean_runPipelineBg base fails n⟩
  unfold Impl.Shell.runPipeline Parent.startAll
  obtain ⟨p, heq, hmade, hlen, hchildren, hpipes⟩ | ⟨p, heq, hclean, i, -, hlt, hi⟩ :=
    createPipes_cases fails (made_start base) k
  · have hlen' : p.pipes.length = k := by rw [hlen]; exact Nat.zero_add k
    have hzero : p.children = 0 := hchildren
    have hnopipe : ¬∃ i < k, fails.pipe i = true := by
      rintro ⟨i, hlt, hi⟩
      rw [hpipes i (Nat.zero_le _) (by show i < 0 + k; omega)] at hi
      exact Bool.false_ne_true hi
    rw [Nat.add_sub_cancel, heq]
    obtain ⟨p', heq', hmade', hforks⟩ | ⟨p', heq', hmade', hsame, -, hlt, hfork, hbefore⟩ :=
      forkAll_cases fails (fun p => (p.closePipes (p.pipes.drop p.children)).waitAll) hmade (k + 1)
    · simp only [heq']
      refine iff_of_true hmade'.clean_wait (.inr (.inr fun i _ hle => hforks i (by omega) (by omega)))
    · simp only [if_true, heq']
      by_cases hfirst : p'.children = 0
      · rw [hfirst]
        refine iff_of_true hmade'.clean_wait (.inr (.inl ?_))
        rw [← hfirst]
        exact hfork
      · have hne : p'.pipes ≠ [] := by
          intro hnil
          rw [hsame] at hnil
          rw [hnil, length_nil] at hlen'
          omega
        refine iff_of_false (not_clean_drop hmade' (by omega) hne) ?_
        rintro (h | h | h)
        · exact hnopipe h
        · rw [hbefore 0 (by omega) (by omega)] at h
          exact Bool.false_ne_true h
        · rw [h p'.children (by omega) (by omega)] at hfork
          exact Bool.false_ne_true hfork
  · rw [Nat.add_sub_cancel, heq]
    exact iff_of_true hclean (.inl ⟨i, by have : i < 0 + k := hlt; omega, hi⟩)

/-- In a pipeline of two commands, the second `fork` fails: both ends of the pipe are open when sh waits for the
first child, and stay open. -/
theorem second_fork_leaks_pipe :
    (Impl.Shell.runPipeline ⟨fun _ => false, fun i => i = 1⟩ 2 (.start standard)).held = some [3, 4] ∧
    (Impl.Shell.runPipeline ⟨fun _ => false, fun i => i = 1⟩ 2 (.start standard)).fds.get 3 = some (.pipe 0 false) ∧
    standard.get 3 = none := by
  decide +kernel

end Lorica.Proof.Shell

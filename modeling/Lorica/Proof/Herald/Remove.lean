import Lorica.Proof.Herald.Atomicity

/-!
# herald: removing what a package owns

A removal puts the entries of the package's owner list into the delete file, an upgrade those that
the new list does not have (`Queues`). The commit that follows deletes these paths, and no others.
-/

namespace Lorica.Proof.Herald

open Lorica.Impl.Herald Posix List

variable {v : Env} {s t u : FileSys} {id path b bs : Bytes} {ls : List Bytes} {p : Path}

/-- A line that is read back as it was written. -/
def Entry (path : Bytes) : Prop :=
  chomp (path ++ [newline]) = path ∧ path ≠ [] ∧ newline ∉ path ∧ path.length + 2 ≤ txnPathMax

instance : DecidablePred Entry := fun _ => inferInstanceAs (Decidable (_ ∧ _))

/-- From `s` to `t` only the file `p` has changed, and has the content `b`. -/
structure Rewrites (p : Path) (b : Bytes) (s t : FileSys) : Prop where
  same : SameBut (· = p) s t
  file : t.get p = some (.file b)

/-- The same of the delete file, which has the lines `ls`. -/
structure Queues (ls : List Bytes) (s t : FileSys) :
  Prop extends Rewrites deleteP (ls.flatMap (· ++ [newline])) s t where
  entries : ∀ l ∈ ls, Entry l

theorem Queues.paths (h : Queues ls s t) : deletedPaths t = ls.map delPath := by
  have hlines := fgetsLines_flatMap txnPathMax ls (fun l hl => (h.entries l hl).2.2) []
  have hchomp : ls.map (chomp ∘ (· ++ [newline])) = ls :=
    (map_congr_left fun l hl => (h.entries l hl).1).trans (map_id ls)
  have hall : ls.filter (· ≠ []) = ls := filter_eq_self.mpr fun l hl => by simpa using (h.entries l hl).2.1
  rw [append_nil] at hlines
  rw [deletedPaths, deleteLines, h.file]
  simp only [contents, hlines, fgetsLines, if_true, append_nil, delPaths, map_map, hchomp, hall]

/-- The second step is taken if the first was done. -/
theorem ends_and {P R : FileSys → Prop} {m n : Sys Bool} (hm : Sys.Ends v m s fun ok t => ok = true → P t)
    (hn : ∀ t, P t → Sys.Ends v n t fun ok u => ok = true → R u) :
    Sys.Ends v (m >>= fun ok => if ok then n else pure false) s fun ok t => ok = true → R t := by
  refine WP.thenEnds hm fun ok t h => ?_
  cases ok with
  | false => exact WP.pure (by simp)
  | true => exact hn t (h rfl)

theorem writeFull_rewrites (hv : ValidPath p) (h : Rewrites p b s t) :
    Sys.Ends v (writeFull (absStr p) bs) t fun ok u => ok = true → Rewrites p (b ++ bs) s u := by
  refine (writeFull_wp hv h.file).ends fun ok u hu e => ?_
  obtain ⟨hs, w, -, hw, hok, -⟩ := hu
  exact ⟨h.same.trans hs, by rw [hw, hok e, take_length]⟩

theorem writeLine_rewrites (hv : ValidPath p) (h : Rewrites p b s t) :
    Sys.Ends v (writeLine (absStr p) bs) t fun ok u => ok = true → Rewrites p (b ++ bs ++ [newline]) s u :=
  ends_and (writeFull_rewrites hv h) fun _ h' => ends_and (writeFull_rewrites hv h') fun _ h'' =>
    Sys.WP.fsync (f := pure) trivial fun _ _ => WP.pure fun _ => h''

theorem queueDelete_wp (h : Queues ls s t) (hp : Entry path) :
    Sys.Ends v (queueDelete path) t fun ok u => ok = true → Queues (ls ++ [path]) s u := by
  rw [queueDelete]
  split
  · exact WP.pure (by simp)
  · rw [txnDelete_eq]
    refine Sys.WP.call trivial (fun s1 h1 => ?_) fun e _ => WP.pure (by simp)
    obtain rfl := openAppend_sem h1
    refine WP.thenEnds (writeLine_rewrites deleteP_valid h.toRewrites) fun ok u hu =>
      Sys.WP.close trivial fun c _ => WP.pure fun e => ?_
    exact ⟨by simpa using hu (Bool.and_eq_true_iff.mp e).1, by simpa [or_imp, forall_and] using ⟨h.entries, hp⟩⟩

/-- A pass over lines, of which it keeps some and queues the others. -/
theorem forLines_queues {K : Bytes → Prop} [DecidablePred K] {lines : List Bytes} (h : Queues ls s t)
    (he : ∀ l ∈ lines.map chomp, ¬ K l → Entry l) :
    Sys.Ends v (forLines (fun line => if K (chomp line) then pure true else queueDelete (chomp line)) lines) t
      fun ok u => ok = true → Queues (ls ++ (lines.map chomp).filter fun l => ¬ K l) s u := by
  induction lines generalizing t ls with
  | nil => exact WP.pure fun _ => by simpa using h
  | cons line lines ih =>
    obtain ⟨hline, hrest⟩ := forall_mem_cons.mp he
    rw [forLines]
    by_cases hk : K (chomp line)
    · simpa [hk] using ih h hrest
    · rw [if_neg hk, map_cons, filter_cons_of_pos (by simpa using hk), append_cons]
      exact ends_and (queueDelete_wp h (hline hk)) fun _ h' => ih h' hrest

/-- The root files without those that `ls` names, and with what is staged. -/
def afterwards (ls : List Bytes) (s u : FileSys) (p : Path) : Option Bytes :=
  (u.data (stageP ++ p)).or (without (rootFiles s) (ls.map delPath) p)

/-- A commit leaves these of the root files of `s`, or fails and an abort brings them all back. -/
def Commits (ls : List Bytes) (s u : FileSys) : Prop := ∀ ok s', Sys.Can faulty txnCommit u ok s' →
  if ok = true then rootFiles s' = afterwards ls s u
  else ∀ σ : Nat → Choice, (∀ n, sound.Allows (σ n)) → rootFiles (txnAbort.exec σ s').2 = rootFiles s

theorem Queues.commits {m : Sys Bool} (hb : Begun s) (hm : Sys.Ends v m s fun ok t => ok = true → Queues ls s t)
    (hr : Sys.Can v m s true t) (hs : SameBut (stageP <+: ·) t u) (hc : Clean u) : Commits ls s u := by
  have hq : Queues ls s t := hm.can hr rfl
  have hbegun : Begun u := ⟨((hs stateP (by decide)).trans (hq.same stateP (by decide))).trans hb.state,
    ((hs journalP (by decide)).trans (hq.same journalP (by decide))).trans hb.journal⟩
  have hroot : rootFiles u = rootFiles s := by
    rw [rootFiles_sameBut hs fun q h => (prefix_append _ _).trans h,
      rootFiles_sameBut hq.same fun q h => h ▸ deleteP_inside]
  have hdel : deletedPaths u = ls.map delPath := by
    rw [← hq.paths, deletedPaths, deletedPaths, deleteLines, deleteLines, hs deleteP (by decide)]
  have happlied : applied u = afterwards ls s u := by
    funext p
    rw [applied, hroot, hdel, afterwards]
  intro ok s' hcan
  rw [← happlied, ← hroot]
  cases (txnCommit_wp rfl hbegun hc.reversible).can hcan with
  | failed state ho h => exact fun σ hσ => txnAbort_exec ▸ recover_undoable ho h hσ
  | pending h => exact h.root
  | cleaned t h hp => exact (rootFiles_prunes hp).trans h.root

/-- The entries of an owner list. -/
def ownerEntries (list : Bytes) : List Bytes := ((fgetsLines txnPathMax [] list).map chomp).filter (· ≠ [])

section

variable {o : Bytes} (hb : Begun s) (hd : Queues ls s s)
  (hold : s.stat (resolve (ownerPath id)) = .ok (.file o)) (he : ∀ l ∈ ownerEntries o, Entry l)
  (hs : SameBut (stageP <+: ·) t u) (hc : Clean u)

include hb hd hold he hs hc

end

/-- The package `a` has the file `bin/a`, and its next version no file. -/
def leaving : FileSys := .ofList
  [(stateP, .file (stateBytes statePrepared)), (journalP, .file []), (deleteP, .file []),
    (stageP ++ [ascii "list"], .file []),
    ([ascii "bin", ascii "a"], .file (ascii "a")), ((resolve (ownerPath (ascii "a"))).path, .file (ascii "bin/a\n"))]

theorem leaving_queues : Queues [] leaving leaving := ⟨⟨.refl _ _, by decide +kernel⟩, forall_mem_nil _⟩

end Lorica.Proof.Herald

import Lorica.Framework.Postorder
import Lorica.Impl.Herald.Resolve
import Lorica.Proof.Herald.Atomicity
import Lorica.Proof.Herald.Database

/-!
# herald: what is queued

`resolve` only reads, so that on a root that does not change it is `Postorder.visit`
(`resolveName_value`), with what `look` says of each name: an error, nothing to do since
it is installed, or a stanza to queue. `resolve_queues` reads the properties of a
queue off `Postorder.visitEach_queued`.
-/

namespace Lorica.Proof.Herald

open Lorica.Impl.Herald Posix List

variable {C : Crypto} {s : FileSys} {max fuel : Nat} {upgrade : Bool} {name : Bytes} {st : Stanza}
  {set : List Stanza}

/-! ## They only read -/

theorem uses_readFile (path : Bytes) : Uses Reads (readFile path) := by
  refine .bind (.call (.openRead path)) fun r => ?_
  split <;> exact .pure _

theorem uses_listsLoadVerified (src : Source) (key : Bytes) : Uses Reads (listsLoadVerified C src key) := by
  refine .bind (uses_readFile _) fun r => ?_
  split
  · exact .pure _
  refine .bind (uses_readFile _) fun r => ?_
  split
  · exact .pure _
  split
  · exact .pure _
  split
  · exact .pure _
  refine .bind (uses_readFile _) fun r => ?_
  split <;> exact .pure _

theorem uses_repoFindIn (out : Option Stanza) (srcs : List Source) : Uses Reads (repoFindIn C name out srcs) := by
  induction srcs generalizing out with
  | nil => exact .pure _
  | cons src srcs ih =>
    refine .bind (uses_listsLoadVerified _ _) fun r => ?_
    split <;> exact ih _

theorem uses_repoFind : Uses Reads (repoFind C name) := by
  refine .bind (.bind (uses_readFile _) fun r => ?_) fun r => ?_
  · split <;> exact .pure _
  split
  · exact .pure _
  refine .bind (uses_repoFindIn _ _) fun r => ?_
  split <;> exact .pure _

theorem uses_resolvePick (de : Option DbEntry) : Uses Reads (resolvePick C name de) := by
  refine .bind uses_repoFind fun r => ?_
  split
  · exact .pure _
  · exact .pure _
  · split <;> exact .pure _

theorem uses_resolveEach {r : Bytes → List Stanza → Sys (Option (Option (List Stanza)))}
    (h : ∀ n set, Uses Reads (r n set)) (ns : List Bytes) (set : List Stanza) :
    Uses Reads (resolveEach r ns set) := by
  induction ns generalizing set with
  | nil => exact .pure _
  | cons n ns ih =>
    refine .bind (h n set) fun r => ?_
    split
    · exact ih _
    · exact .pure _

theorem uses_resolveName (name : Bytes) (set : List Stanza) : Uses Reads (resolveName C max upgrade fuel name set) := by
  induction fuel generalizing name set with
  | zero => exact .pure _
  | succ fuel ih =>
    rw [resolveName]
    split
    · exact .pure _
    refine .bind (uses_dbFind _) fun de => ?_
    split
    · exact .pure _
    split
    · exact .pure _
    refine .bind (uses_resolvePick _) fun r => ?_
    split
    · exact .pure _
    · exact .pure _
    split
    · exact .pure _
    refine .bind (uses_resolveEach ih _ _) fun r => ?_
    split <;> exact .pure _

/-! ## What a name leads to -/

/-- The entry of `n` in the database of the root. -/
def dbEntry (s : FileSys) (n : Bytes) : Option DbEntry := (Sys.value (dbFind heraldDbPath n) s).toOption

/-- `n` is installed. -/
def Installed (s : FileSys) (n : Bytes) : Prop := (dbEntry s n).isSome = true

instance (s : FileSys) (n : Bytes) : Decidable (Installed s n) := inferInstanceAs (Decidable (_ = true))

/-- What `resolve` does with a name that is not queued. -/
def look (C : Crypto) (upgrade : Bool) (s : FileSys) (n : Bytes) : Option (Option Stanza) :=
  if manifestIsBareName n = false then none
  else if upgrade = false ∧ Installed s n then some none
  else Sys.value (resolvePick C n (dbEntry s n)) s

/-- A candidate has the name that was looked for. -/
theorem candidate_name {url : Bytes} {out : Option Stanza} (h : ∀ best, out = some best → best.name = name)
    (st : Stanza) : ∀ best, candidate name url out st = some best → best.name = name := by
  intro best hbest
  unfold candidate at hbest
  split at hbest
  · exact h best hbest
  rename_i hname
  rw [not_not] at hname
  split at hbest
  · exact h best hbest
  split at hbest
  · cases hbest
    exact hname
  split at hbest
  · cases hbest
    exact hname
  · cases hbest
    exact h _ rfl

theorem repoFindIn_name {out : Option Stanza} (h : ∀ best, out = some best → best.name = name)
    (srcs : List Source) :
    Yields (fun r => ∀ best, r = some best → best.name = name) (repoFindIn C name out srcs) := by
  induction srcs generalizing out with
  | nil => exact h
  | cons src srcs ih =>
    refine Yields.bind (.all _) fun r _ => ?_
    split
    · exact ih h
    · rename_i pbuf
      refine ih ?_
      generalize packages pbuf = sts
      induction sts generalizing out with
      | nil => exact h
      | cons st sts ih' => exact ih' (candidate_name h st)

theorem resolvePick_name (de : Option DbEntry) :
    Yields (fun r => ∀ st, r = some (some st) → st.name = name) (resolvePick C name de) := by
  have hfind : Yields (fun r => ∀ st, r = .found st → st.name = name) (repoFind C name) := by
    refine Yields.bind (.all _) fun r _ => ?_
    split
    · intro st hst
      cases hst
    refine Yields.bind (repoFindIn_name (fun best hb => by cases hb) _) fun r hr => ?_
    split
    · intro st hst
      cases hst
    · intro st hst
      cases hst
      exact hr _ rfl
  refine Yields.bind hfind fun r hr => ?_
  split
  · intro st hst
    cases hst
  · intro st hst
    split at hst <;> cases hst
  · split
    · intro st hst
      cases hst
      exact hr _ rfl
    · intro st hst
      split at hst
      · cases hst
        exact hr _ rfl
      · cases hst

theorem look_name (n : Bytes) (st : Stanza) (h : look C upgrade s n = some (some st)) : st.name = n := by
  rw [look] at h
  split at h
  · cases h
  split at h
  · cases h
  · exact (resolvePick_name _).exec _ _ st h

/-- Only for an installed package there is nothing to queue. -/
theorem resolvePick_installed {de : Option DbEntry} :
    Yields (fun r => r = some none → de.isSome = true) (resolvePick C name de) := by
  refine Yields.bind (.all _) fun r _ => ?_
  split
  · intro h
    cases h
  · intro h
    split at h
    · assumption
    · cases h
  · split
    · intro h
      cases h
    · exact fun _ => rfl

theorem look_installed {n : Bytes} (h : look C upgrade s n = some none) : Installed s n := by
  rw [look] at h
  split at h
  · cases h
  split at h
  · rename_i hi
    exact hi.2
  · exact resolvePick_installed.exec _ _ h

/-! ## `resolve` is `visit` -/

/-- A queue as `resolve` builds it. -/
structure Valid (C : Crypto) (upgrade : Bool) (s : FileSys) (set : List Stanza) : Prop where
  nodup : (set.map (·.name)).Nodup
  looked : ∀ st ∈ set, look C upgrade s st.name = some (some st)

/-- `Postorder.visit`, for the packages of a root. -/
abbrev visitPkg (C : Crypto) (max : Nat) (upgrade : Bool) (s : FileSys) (fuel : Nat) (n : Bytes)
    (set : List Stanza) : Option (Option (List Stanza)) :=
  Postorder.visit (·.name) Stanza.deps (look C upgrade s) max fuel n set

theorem Valid.push (h : Valid C upgrade s set) {n : Bytes} (hn : n ∉ set.map (·.name))
    (hl : look C upgrade s n = some (some st)) : Valid C upgrade s (set ++ [st]) := by
  have hname := look_name n st hl
  refine ⟨?_, fun st' hst' => ?_⟩
  · rw [map_append, map_singleton, hname]
    exact nodup_append.mpr ⟨h.nodup, nodup_singleton n, fun x hx y hy => by
      rw [mem_singleton.mp hy]
      rintro rfl
      exact hn hx⟩
  · rcases mem_append.mp hst' with hst' | hst'
    · exact h.looked st' hst'
    · rw [mem_singleton.mp hst', hname, hl]

theorem Valid.visitEach (h : Valid C upgrade s set) {ns : List Bytes} {set' : List Stanza}
    (hv : Postorder.visitEach (visitPkg C max upgrade s fuel) ns set = some (some set')) : set <+: set' := by
  obtain ⟨new, rfl, -⟩ := Postorder.visitEach_queued_of
    (fun n q q' hq hv => Postorder.visit_queued look_name hq hv) h.nodup hv
  exact prefix_append _ _

theorem Valid.visit (h : Valid C upgrade s set) {n : Bytes} {set' : List Stanza}
    (hv : visitPkg C max upgrade s fuel n set = some (some set')) : Valid C upgrade s set' := by
  obtain ⟨new, rfl, hq⟩ := Postorder.visit_queued look_name h.nodup hv
  refine ⟨hq.nodup h.nodup, fun st hst => ?_⟩
  exact (mem_append.mp hst).elim (h.looked st) (hq.looked st)

theorem resolveEach_value {r : Bytes → List Stanza → Sys (Option (Option (List Stanza)))}
    (hr : ∀ n set, Uses Reads (r n set))
    (heq : ∀ n set, Valid C upgrade s set → Sys.value (r n set) s = visitPkg C max upgrade s fuel n set)
    (ns : List Bytes) (h : Valid C upgrade s set) :
    Sys.value (resolveEach r ns set) s = Postorder.visitEach (visitPkg C max upgrade s fuel) ns set := by
  induction ns generalizing set with
  | nil => rfl
  | cons n ns ih =>
    rw [resolveEach, Sys.value_bind (hr n set), heq n set h, Postorder.visitEach]
    cases hv : visitPkg C max upgrade s fuel n set with
    | none => rfl
    | some q =>
      cases q with
      | none => rfl
      | some set' => exact ih (h.visit hv)

theorem rotate_eq {set' : List Stanza} (h : set ++ [st] <+: set') :
    rotate set.length st set' = set'.eraseIdx set.length ++ [st] := by
  obtain ⟨new, rfl⟩ := h
  have herase : (set ++ [st] ++ new).eraseIdx set.length = set ++ new := by
    rw [append_assoc, eraseIdx_append_of_length_le (le_refl _), Nat.sub_self, singleton_append,
      eraseIdx_cons_zero]
  rw [Impl.Herald.rotate, herase]
  split
  · rename_i hlen
    rw [length_append, length_append, length_singleton] at hlen
    rw [length_eq_zero_iff.mp (show new.length = 0 by omega), append_nil, append_nil]
  · rfl

/-- On a root that does not change. -/
theorem resolveName_value (h : Valid C upgrade s set) (n : Bytes) :
    Sys.value (resolveName C max upgrade fuel n set) s = visitPkg C max upgrade s fuel n set := by
  induction fuel generalizing n set with
  | zero => rfl
  | succ fuel ih =>
    -- a queued name leads to its stanza, so that it passes the checks before
    have hqueued : n ∈ set.map (·.name) → ∃ st, look C upgrade s n = some (some st) := fun hn => by
      obtain ⟨st, hst, rfl⟩ := mem_map.mp hn
      exact ⟨st, h.looked st hst⟩
    rw [resolveName, visitPkg, Postorder.visit]
    by_cases hbare : manifestIsBareName n = false
    · have hl : look C upgrade s n = none := if_pos hbare
      rw [if_pos hbare, if_neg (fun hn => by obtain ⟨st, hst⟩ := hqueued hn; rw [hl] at hst; cases hst), hl]
      rfl
    have hde : (Sys.value (dbFind heraldDbPath n) s).toOption = dbEntry s n := rfl
    rw [if_neg hbare, Sys.value_bind (uses_dbFind _), hde]
    by_cases hinst : upgrade = false ∧ (dbEntry s n).isSome = true
    · have hl : look C upgrade s n = some none := (if_neg hbare).trans (if_pos hinst)
      rw [if_pos hinst, if_neg (fun hn => by obtain ⟨st, hst⟩ := hqueued hn; rw [hl] at hst; cases hst), hl]
      rfl
    rw [if_neg hinst]
    by_cases hn : n ∈ set.map (·.name)
    · rw [if_pos hn, if_pos hn]
      rfl
    have hl : look C upgrade s n = Sys.value (resolvePick C n (dbEntry s n)) s :=
      (if_neg hbare).trans (if_neg hinst)
    rw [if_neg hn, if_neg hn, hl, Sys.value_bind (uses_resolvePick _)]
    cases hp : Sys.value (resolvePick C n (dbEntry s n)) s with
    | none => rfl
    | some r =>
      cases r with
      | none => rfl
      | some st =>
        by_cases hlen : max ≤ set.length
        · simp only [if_pos hlen]
          rfl
        simp only [if_neg hlen]
        have hst : Valid C upgrade s (set ++ [st]) := h.push hn (hl.trans hp)
        rw [Sys.value_bind (uses_resolveEach (fun n set => uses_resolveName n set) _ _),
          resolveEach_value (fun n set => uses_resolveName n set) (fun n set h => ih h n) _ hst]
        cases hv : Postorder.visitEach (visitPkg C max upgrade s fuel) st.deps (set ++ [st]) with
        | none => rfl
        | some r =>
          cases r with
          | none => rfl
          | some set' => exact congrArg (fun q => some (some q)) (rotate_eq (hst.visitEach hv))

/-! ## What is queued -/

/-- `st` depends on `st'`, and `st'` is queued. -/
abbrev DependsOn (set : List Stanza) (st st' : Stanza) : Prop := Postorder.Dep (·.name) Stanza.deps set st st'

/-- Resolving any list of names into one set returns, and changes nothing. If no call
has failed, no name is queued twice, at most `max` packages are queued, every name
that a queued package depends on is queued or installed, and, if no queued package
depends on itself through others that are queued, each stands behind those it
depends on. -/
theorem resolve_queues (C : Crypto) (s : FileSys) (upgrade : Bool) (names : List Bytes) (hfuel : max < fuel)
    {σ : Nat → Choice} (hσ : ∀ n, sound.Allows (σ n)) :
    ∃ r, (resolveEach (resolveName C max upgrade fuel) names []).exec σ s = (some r, s) ∧ ∀ set, r = some set →
        (set.map (·.name)).Nodup ∧ set.length ≤ max ∧
        (∀ st ∈ set, ∀ d ∈ st.deps, d ∈ set.map (·.name) ∨ Installed s d) ∧
        ((∀ st ∈ set, ¬ Relation.TransGen (DependsOn set) st st) →
          ∀ i j (hi : i < set.length) (hj : j < set.length), set[j].name ∈ set[i].deps → j < i) := by
  obtain ⟨r, hr⟩ : ∃ r, Postorder.visitEach (visitPkg C max upgrade s fuel) names [] = some r :=
    Postorder.visitEach_returns hfuel
  have hnil : Valid C upgrade s [] := ⟨nodup_nil, forall_mem_nil _⟩
  have hvalue := resolveEach_value (fun n set => uses_resolveName n set)
    (fun n set h => @resolveName_value C s max fuel upgrade set h n) names hnil
  refine ⟨r, ?_, fun set hset => ?_⟩
  · rw [Sys.exec_reads (uses_resolveEach (fun n set => uses_resolveName n set) _ _) (v := sound) rfl hσ, hvalue, hr]
  · have hq := Postorder.visitEach_queued look_name (hset ▸ hr)
    refine ⟨hq.nodup nodup_nil, hq.length (Nat.zero_le _), fun st hst d hd => ?_, fun hac i j hi hj hd => ?_⟩
    · exact (hq.closed st hst d hd).imp_right look_installed
    · exact hq.after_deps hac hi hj hd

/-- A repository whose package `app` depends on `lib`, and `lib` on `base`, which is
installed. -/
def pairRepo : FileSys := .ofList
  [([ascii "etc", ascii "herald", ascii "sources.list"], .file (ascii "u s c\n")),
    ([ascii "etc", ascii "aegis", ascii "herald", ascii "db"], .file (ascii "base\t1\t\t0\n")),
    ([ascii "var", ascii "lib", ascii "herald", ascii "lists", ascii "u_s_c.Release"],
      .file (ascii "SHA256:\n 00 1 c/binary-x86_64/Packages\n")),
    ([ascii "var", ascii "lib", ascii "herald", ascii "lists", ascii "u_s_c.Release.sig"], .file []),
    ([ascii "var", ascii "lib", ascii "herald", ascii "lists", ascii "u_s_c.Packages"],
      .file (ascii "Package: app\nDepends: lib\n\nPackage: lib\nDepends: base\n"))]

/-- Cryptography for an example. -/
def plainCrypto : Crypto := ⟨fun _ => [0], fun _ _ => true⟩

set_option maxRecDepth 10000 in
theorem resolve_queues_pair : ∃ set,
    (resolveEach (resolveName plainCrypto 64 false 65) [ascii "app"] []).exec (fun _ => .ok) pairRepo =
      (some (some set), pairRepo) ∧ set.map (·.name) = [ascii "lib", ascii "app"] ∧
      ∀ st ∈ set, ∀ d ∈ st.deps, d ∈ set.map (·.name) ∨ Installed pairRepo d := by
  obtain ⟨r, hr, h⟩ := resolve_queues plainCrypto pairRepo false [ascii "app"] (by decide : 64 < 65)
    (σ := fun _ => .ok) fun _ => trivial
  have hset : ((resolveEach (resolveName plainCrypto 64 false 65) [ascii "app"] []).exec
      (fun _ => .ok) pairRepo).1.map (·.map (·.map (·.name))) = some (some [ascii "lib", ascii "app"]) := by
    decide
  rw [hr] at hset
  cases r with
  | none => cases hset
  | some set => exact ⟨set, hr, by simpa using hset, (h set rfl).2.2.1⟩

end Lorica.Proof.Herald

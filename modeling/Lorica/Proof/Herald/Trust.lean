import Lorica.Impl.Herald.Resolve

/-!
# herald: what may be installed from a repository

Whatever the files under `/var/lib/herald` are when they are read, a list of packages
that `lists_load_verified` returns is one whose hash a signed `Release` gives
(`listsLoadVerified_yields`), so that every queued stanza stands in such a list
(`resolveName_yields`). A buffer is handed to `install_bytes` only after its own hash
has been compared with its stanza's, and is not read again in between
(`apply_set_trusted`).
-/

namespace Lorica.Proof.Herald

open Lorica.Impl.Herald Posix List

variable {C : Crypto}

/-- A list of packages whose hash is the one that a `Release` with a valid signature
gives for the list of a source. -/
def Pinned (C : Crypto) (pbuf : Bytes) : Prop :=
  ∃ rbuf sbuf src, C.verify rbuf sbuf = true ∧
    releaseFindHash (wantPath src) false (bufLines [] rbuf) = some (hex32 (C.sha256 pbuf))

/-- The hash stands in a stanza of such a list. -/
def Vouched (C : Crypto) (hash : Bytes) : Prop :=
  ∃ pbuf, Pinned C pbuf ∧ ∃ st ∈ packages pbuf, st.sha256 = hash

/-! ## Lists and stanzas -/

theorem listsLoadVerified_yields (src : Source) (key : Bytes) :
    Yields (fun r => ∀ pbuf, r = some pbuf → Pinned C pbuf) (listsLoadVerified C src key) := by
  have hnone : ∀ pbuf, (none : Option Bytes) = some pbuf → Pinned C pbuf := fun pbuf h => by cases h
  refine Yields.bind (.all _) fun r _ => ?_
  split
  · exact hnone
  rename_i rbuf
  refine Yields.bind (.all _) fun r _ => ?_
  split
  · exact hnone
  rename_i sbuf
  split
  · exact hnone
  rename_i hverify
  split
  · exact hnone
  rename_i wanthash hfind
  refine Yields.bind (.all _) fun r _ => ?_
  split
  · exact hnone
  intro pbuf' hp
  split at hp
  · rename_i hhash
    cases hp
    exact ⟨rbuf, sbuf, src, by simpa using hverify, hhash ▸ hfind⟩
  · cases hp

variable {name : Bytes} {out : Option Stanza} {set : List Stanza} {s : Host.State}

theorem candidate_vouched {url : Bytes} {st : Stanza}
    (hout : ∀ best, out = some best → Vouched C best.sha256) (hst : Vouched C st.sha256) :
    ∀ best, candidate name url out st = some best → Vouched C best.sha256 := by
  intro best hbest
  unfold candidate at hbest
  split at hbest
  · exact hout best hbest
  split at hbest
  · exact hout best hbest
  split at hbest
  · cases hbest
    exact hst
  split at hbest
  · cases hbest
    exact hst
  · cases hbest
    exact hout _ rfl

theorem foldl_candidate_vouched {url : Bytes} {sts : List Stanza}
    (hout : ∀ best, out = some best → Vouched C best.sha256) (hsts : ∀ st ∈ sts, Vouched C st.sha256) :
    ∀ best, sts.foldl (candidate name url) out = some best → Vouched C best.sha256 := by
  induction sts generalizing out with
  | nil => exact hout
  | cons st sts ih =>
    exact ih (candidate_vouched hout (hsts st mem_cons_self)) fun st h => hsts st (mem_cons_of_mem _ h)

theorem repoFindIn_yields (hout : ∀ best, out = some best → Vouched C best.sha256) (srcs : List Source) :
    Yields (fun r => ∀ best, r = some best → Vouched C best.sha256) (repoFindIn C name out srcs) := by
  induction srcs generalizing out with
  | nil => exact hout
  | cons src srcs ih =>
    refine Yields.bind (listsLoadVerified_yields src (srckey src)) fun r hr => ?_
    split
    · exact ih hout
    · rename_i pbuf
      exact ih (foldl_candidate_vouched hout fun st hst => ⟨pbuf, hr pbuf rfl, st, hst, rfl⟩)

theorem repoFind_yields (name : Bytes) :
    Yields (fun r => ∀ st, r = .found st → Vouched C st.sha256) (repoFind C name) := by
  refine Yields.bind (.all _) fun r _ => ?_
  split
  · intro st hst
    cases hst
  refine Yields.bind (repoFindIn_yields (fun best h => by cases h) _) fun r hr => ?_
  split
  · intro st hst
    cases hst
  · intro st hst
    cases hst
    exact hr _ rfl

theorem resolvePick_yields (name : Bytes) (de : Option DbEntry) :
    Yields (fun r => ∀ st, r = some (some st) → Vouched C st.sha256) (resolvePick C name de) := by
  refine Yields.bind (repoFind_yields name) fun r hr => ?_
  split
  · intro st hst
    cases hst
  · intro st hst
    split at hst <;> cases hst
  · split
    · intro st hst
      cases hst
      exact hr _ rfl
    · intro st hst
      split at hst
      · cases hst
        exact hr _ rfl
      · cases hst

/-! ## The queue -/

/-- A result of `resolve` in which all hashes are vouched for. -/
def QueueVouched (C : Crypto) (r : Option (Option (List Stanza))) : Prop :=
  ∀ set, r = some (some set) → ∀ st ∈ set, Vouched C st.sha256

theorem resolveEach_yields {r : Bytes → List Stanza → Sys (Option (Option (List Stanza)))}
    (h : ∀ n set, (∀ st ∈ set, Vouched C st.sha256) → Yields (QueueVouched C) (r n set))
    (ns : List Bytes) (hset : ∀ st ∈ set, Vouched C st.sha256) :
    Yields (QueueVouched C) (resolveEach r ns set) := by
  induction ns generalizing set with
  | nil =>
    intro set' hset'
    cases hset'
    exact hset
  | cons n ns ih =>
    refine Yields.bind (h n set hset) fun r hr => ?_
    split
    · exact ih (hr _ rfl)
    · exact hr

theorem resolveName_yields {max fuel : Nat} {upgrade : Bool} (name : Bytes)
    (hset : ∀ st ∈ set, Vouched C st.sha256) :
    Yields (QueueVouched C) (resolveName C max upgrade fuel name set) := by
  induction fuel generalizing name set with
  | zero =>
    intro set' hset'
    cases hset'
  | succ fuel ih =>
    have hfail : QueueVouched C (some none) := fun set' h => by cases h
    have hstay : QueueVouched C (some (some set)) := fun set' h => by
      cases h
      exact hset
    rw [resolveName]
    split
    · exact hfail
    refine Yields.bind (.all _) fun de _ => ?_
    split
    · exact hstay
    split
    · exact hstay
    refine Yields.bind (resolvePick_yields name _) fun r hr => ?_
    split
    · exact hfail
    · exact hstay
    rename_i st
    have hst : Vouched C st.sha256 := hr st rfl
    split
    · exact hfail
    have hpush : ∀ st' ∈ set ++ [st], Vouched C st'.sha256 := fun st' h => by
      rcases mem_append.mp h with h | h
      · exact hset st' h
      · exact mem_singleton.mp h ▸ hst
    refine Yields.bind (resolveEach_yields (fun n set h => ih n h) _ hpush) fun r hr => ?_
    split
    · intro set'' hset''
      cases hset''
      intro st' hst'
      rw [Impl.Herald.rotate] at hst'
      split at hst'
      · exact hr _ rfl st' hst'
      · rcases mem_append.mp hst' with h | h
        · exact hr _ rfl st' (mem_of_mem_eraseIdx h)
        · exact mem_singleton.mp h ▸ hst
    · exact hr

/-! ## What is handed over -/

/-- A buffer whose hash is vouched for. -/
def Trusted (C : Crypto) (pb : Bytes) : Prop := Vouched C (hex32 (C.sha256 pb))

/-- All buffers handed over so far are trusted. -/
def AllTrusted (C : Crypto) (s : Host.State) : Prop := ∀ pb ∈ s.handed, Trusted C pb

/-- `WP` on the machine `Host`, where anything can happen before each operation, for
programs that hand over trusted buffers only. -/
abbrev Hands (C : Crypto) {α : Type} (p : Prog Host.machine α) (s : Host.State) (Q : α → Prop) : Prop :=
  WP (M := Host.machine) (fun _ => True) p s (fun a s' => Q a ∧ AllTrusted C s') fun _ s' => AllTrusted C s'

theorem liftSys_hands {α : Type} {P : α → Prop} {p : Sys α} (h : Yields P p)
    (hs : AllTrusted C s) : Hands C (liftSys p) s P := by
  induction p generalizing s with
  | pure a => exact ⟨h, hs⟩
  | op o k ih => exact ⟨hs, fun c _ => ih _ (h _) hs⟩

theorem readChecked_hands (st : Stanza) (hs : AllTrusted C s) :
    Hands C (readChecked C st) s fun r => ∀ pb, r = some pb → hex32 (C.sha256 pb) = st.sha256 := by
  refine WP.seq (liftSys_hands (.all _) hs) (fun r s1 h1 => ?_)
  split
  · exact ⟨fun pb h => (by cases h), h1.2⟩
  · refine ⟨fun pb' h => ?_, h1.2⟩
    split at h
    · rename_i heq
      cases h
      exact heq
    · cases h

theorem fetchSet_hands (set : List Stanza) (hs : AllTrusted C s) : Hands C (fetchSet C set) s fun _ => True := by
  induction set generalizing s with
  | nil => exact ⟨trivial, hs⟩
  | cons st sts ih =>
    refine ⟨hs, fun c _ => ?_⟩
    change Hands C (if c.ok = true then _ else _) _ _
    split
    · refine WP.seq (readChecked_hands st hs) (fun r s1 h1 => ?_)
      split
      · exact ⟨trivial, h1.2⟩
      · exact ih h1.2
    · exact ⟨trivial, hs⟩

theorem installSet_hands (hset : ∀ st ∈ set, Vouched C st.sha256)
    (hs : AllTrusted C s) : Hands C (installSet C set) s fun _ => True := by
  induction set generalizing s with
  | nil => exact ⟨trivial, hs⟩
  | cons st sts ih =>
    refine WP.seq (readChecked_hands st hs) (fun r s1 h1 => ?_)
    split
    · exact ⟨trivial, h1.2⟩
    rename_i pb
    refine ⟨h1.2, fun c _ => ?_⟩
    -- the buffer that was hashed is the one that is handed over
    have hpb : Trusted C pb := by
      rw [Trusted, h1.1 pb rfl]
      exact hset st mem_cons_self
    have hs2 : AllTrusted C (Host.step (.installBytes pb) c s1).2 := fun pb' h => by
      rcases mem_append.mp h with h | h
      · exact h1.2 pb' h
      · exact mem_singleton.mp h ▸ hpb
    change Hands C (if c.ok = true then _ else _) _ _
    split
    · exact ih (fun st h => hset st (mem_cons_of_mem _ h)) hs2
    · exact ⟨trivial, hs2⟩

theorem applySet_hands (hset : ∀ st ∈ set, Vouched C st.sha256)
    (hs : AllTrusted C s) : Hands C (applySet C set) s fun _ => True := by
  refine WP.seq (liftSys_hands (.all _) hs) (fun _ s1 h1 => ?_)
  refine WP.seq (fetchSet_hands set h1.2) (fun ok s2 h2 => ?_)
  split
  · refine WP.seq (liftSys_hands (.all _) h2.2) (fun ok s3 h3 => ?_)
    split
    · refine WP.seq (installSet_hands hset h3.2) (fun ok s4 h4 => ?_)
      exact liftSys_hands (.all _) h4.2
    · exact ⟨trivial, h3.2⟩
  · exact ⟨trivial, h2.2⟩

theorem applyQueued_hands {r : Option (Option (List Stanza))} (hr : QueueVouched C r)
    (hs : AllTrusted C s) : Hands C (applyQueued C r) s fun _ => True := by
  unfold applyQueued
  split
  · split
    · exact ⟨trivial, hs⟩
    · exact applySet_hands (hr _ rfl) hs
  · exact ⟨trivial, hs⟩

theorem cmdInstallNamed_hands (name : Bytes) (hs : AllTrusted C s) :
    Hands C (cmdInstallNamed C name) s fun _ => True := by
  unfold cmdInstallNamed
  split
  · exact ⟨trivial, hs⟩
  · refine WP.seq (liftSys_hands (resolveName_yields name (forall_mem_nil _)) hs) (fun r s1 h1 => ?_)
    exact applyQueued_hands h1.1 h1.2

theorem cmdUpgrade_hands (name : Option Bytes) (hs : AllTrusted C s) :
    Hands C (cmdUpgrade C name) s fun _ => True := by
  unfold cmdUpgrade
  split
  · rename_i name
    split
    · exact ⟨trivial, hs⟩
    · refine WP.seq (liftSys_hands (.all _) hs) (fun r s1 h1 => ?_)
      split
      · refine WP.seq (liftSys_hands (resolveName_yields name (forall_mem_nil _)) h1.2) (fun r s2 h2 => ?_)
        exact applyQueued_hands h2.1 h2.2
      · exact ⟨trivial, h1.2⟩
  · refine WP.seq (liftSys_hands (.all _) hs) (fun r s1 h1 => ?_)
    split
    · exact ⟨trivial, h1.2⟩
    · refine WP.seq (liftSys_hands (resolveEach_yields (fun n set h => resolveName_yields n h) _
        (forall_mem_nil _)) h1.2) (fun r s2 h2 => ?_)
      exact applyQueued_hands h2.1 h2.2

/-- Along every run of `cmd_install_named` and of `cmd_upgrade`, with any change to any
file before any operation, every buffer that has been handed to `install_bytes` has
the hash of a stanza in a list whose own hash is in a `Release` with a valid
signature. -/
theorem apply_set_trusted (C : Crypto) (fs : FileSys) (cs : List Host.Choice) :
    (∀ name, ∀ pb ∈ ((cmdInstallNamed C name).run cs ⟨fs, []⟩).state.handed, Trusted C pb) ∧
      (∀ name, ∀ pb ∈ ((cmdUpgrade C name).run cs ⟨fs, []⟩).state.handed, Trusted C pb) := by
  have hnil : AllTrusted C ⟨fs, []⟩ := forall_mem_nil _
  have hrun : ∀ {p : Prog Host.machine Bool}, Hands C p ⟨fs, []⟩ (fun _ => True) →
      AllTrusted C (p.run cs ⟨fs, []⟩).state := fun h =>
    WP.reaches (R := AllTrusted C) (h.mono (fun _ _ h => h.2) fun _ _ h => h) ⟨cs, fun _ _ => trivial, rfl⟩
  exact ⟨fun name => hrun (cmdInstallNamed_hands name hnil), fun name => hrun (cmdUpgrade_hands name hnil)⟩

end Lorica.Proof.Herald

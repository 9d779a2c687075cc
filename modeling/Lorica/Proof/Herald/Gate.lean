import Lorica.Proof.Herald.Tar

/-!
# The prefixes that an archive may write below

With a list of prefixes, an entry that is a directory above a prefix is let through because of
the slash at its end, and so is a regular file whose name ends in one; then the slash is cut
off. Regular files are below prefixes exactly if no such entry is among those that the walk comes
to (`tar_files_gated_iff`). The calls may answer anything, so that an entry is come to if all
before it are accepted.
-/

namespace Lorica.Proof.Herald

open Lorica.Impl.Herald.Tar Lorica.Try List

/-- Regular files are below a prefix. -/
def FileGated (root : Bytes) (prefixes : List Bytes) : Posix.Op → Prop
  | .call (.openTrunc p) =>
    ∃ rel, p = root ++ slash :: rel ∧ ∃ q ∈ prefixes, q <+: rel ∧ q.length < rel.length
  | _ => True

/-- The entries that the walk comes to, up to the first that it refuses. -/
def visited (buf root : Bytes) (prefixes : List Bytes) : Nat → Nat → Nat → List Header
  | 0, _, _ => []
  | n + 1, off, zeroRun =>
    if buf.length < wrap (off + tarBlock) then []
    else
      match readBlock buf off zeroRun with
      | .error _ => []
      | .ok .final => []
      | .ok .zero => visited buf root prefixes n (wrap (off + tarBlock)) (zeroRun + 1)
      | .ok (.entry h) =>
        if isFileFlag h.typeflag = true ∨ isDirFlag h.typeflag = true then
          if pathIsSafe h.path = false then []
          else
            match target root (some prefixes) h.path with
            | .error _ => []
            | .ok _ => h :: visited buf root prefixes n (wrap (h.dataOff + h.padded)) 0
        else visited buf root prefixes n (wrap (h.dataOff + h.padded)) 0

/-- A regular file with a slash at the end of its name has more than that slash below a prefix. -/
def NamesFile (prefixes : List Bytes) (h : Header) : Prop :=
  isFileFlag h.typeflag = true → h.path ≠ manifestName → h.path.getLast? = some slash →
    ∃ q ∈ prefixes, q <+: h.path ∧ q.length + 1 < h.path.length

/-! ## Paths -/

theorem prefix_of_dropLast {q p : Bytes} (hl : p.getLast? = some slash) :
    (q <+: p.dropLast ∧ q.length < p.dropLast.length) ↔ (q <+: p ∧ q.length + 1 < p.length) := by
  have he : p.dropLast ++ [slash] = p := dropLast_append_getLast? slash hl
  have hlen : p.length = p.dropLast.length + 1 := by
    have := congrArg length he
    simpa using this.symm
  constructor
  · rintro ⟨hq, hlt⟩
    exact ⟨hq.trans ⟨_, he⟩, by omega⟩
  · rintro ⟨hq, hlt⟩
    exact ⟨prefix_of_prefix_length_le hq ⟨_, he⟩ (by omega), by omega⟩

/-- Where an entry is let through, its file is below a prefix just if its name says so. -/
theorem gated_iff {prefixes : List Bytes} {path : Bytes} (hslash : ∀ q ∈ prefixes, q.getLast? = some slash)
    (hallow : allowed prefixes path = true) (hman : path ≠ manifestName) :
    (∃ q ∈ prefixes, q <+: stripTrailingSlash path ∧ q.length < (stripTrailingSlash path).length) ↔
      (path.getLast? = some slash → ∃ q ∈ prefixes, q <+: path ∧ q.length + 1 < path.length) := by
  by_cases hl : path.getLast? = some slash
  · simp only [stripTrailingSlash, hl, if_true, forall_const, prefix_of_dropLast hl]
  · simp only [stripTrailingSlash, hl, false_imp_iff, iff_true]
    -- the entry was let through as one below a prefix, which ends in a slash
    simp only [allowed, beq_iff_eq, hman, beq_eq_false_iff_ne.mpr hl, Bool.or_eq_true, false_or,
      any_eq_true, strStartsWith, Bool.false_and] at hallow
    obtain ⟨q, hq, hp⟩ := hallow
    have hp : q <+: path := by simpa using hp
    refine ⟨q, hq, hp, lt_of_le_of_ne hp.length_le fun he => hl ?_⟩
    rw [← hp.eq_of_length he]
    exact hslash q hq

/-! ## Entries -/

section

variable {buf root full : Bytes} {prefixes : List Bytes} {owner : Option Bytes} {off : Nat} {h : Header}

theorem mkdir_canEnd (p : Bytes) : CanEnd (Try.lift (Sys.mkdir p) : Act (Except Errno Unit)) (.ok ()) :=
  ⟨Except.ok (), rfl⟩

theorem open_canEnd (p : Bytes) : CanEnd (Try.lift (Sys.openTrunc p) : Act (Except Errno Unit)) (.ok ()) :=
  ⟨Except.ok (), rfl⟩

theorem write_canEnd (p bs : Bytes) (w : Nat) : CanEnd (Try.lift (Sys.write p bs) : Act (Except Errno Nat)) (.ok w) :=
  ⟨Except.ok w, rfl⟩

theorem close_canEnd (p : Bytes) : CanEnd (Try.lift (Sys.close p) : Act Bool) true := ⟨true, rfl⟩

theorem mkdirParentsFrom_canEnd (e : TarError) (done rest : Bytes) : CanEnd (mkdirParentsFrom e done rest) () := by
  induction rest generalizing done with
  | nil => exact CanEnd.pure ()
  | cons b rest ih =>
    rw [mkdirParentsFrom]
    split
    · exact CanEnd.bind (a := ()) (CanEnd.bind (mkdir_canEnd done) (CanEnd.pure ())) (ih _)
    · exact ih _

theorem writeData_canEnd {dataOff size : Nat} (hfit : dataOff + size ≤ buf.length) :
    CanEnd (writeData buf full dataOff size size 0) () := by
  cases size with
  | zero => exact CanEnd.pure ()
  | succ size =>
    rw [writeData, if_neg (by omega), fetch, if_pos (by omega)]
    -- the first write takes all
    refine CanEnd.bind (CanEnd.pure _) (CanEnd.bind (write_canEnd _ _ (size + 1)) ?_)
    dsimp only
    rw [if_neg (by omega)]
    cases size with
    | zero =>
      exact CanEnd.pure ()
    | succ size =>
      rw [writeData, if_pos (by omega)]
      exact CanEnd.pure ()

theorem writeOwner_canEnd (o path : Bytes) : CanEnd (writeOwner o path) () := by
  refine CanEnd.bind (write_canEnd o path path.length) ?_
  dsimp only
  rw [if_neg (not_not.mpr rfl)]
  exact CanEnd.bind (write_canEnd o [newline] 1) (CanEnd.pure ())

theorem extractFile_canEnd (hin : Inside buf.length off h) : CanEnd (extractFile buf full h owner) () := by
  have hfit : h.dataOff + h.size ≤ buf.length := by
    have := hin.padded
    have := hin.size
    omega
  refine CanEnd.bind (mkdirParentsFrom_canEnd _ _ _) (CanEnd.bind (open_canEnd full) ?_)
  refine CanEnd.bind (writeData_canEnd hfit) (CanEnd.bind (close_canEnd full) ?_)
  cases owner with
  | none => exact CanEnd.pure ()
  | some o => exact writeOwner_canEnd o _

theorem extractEntry_canEnd (hin : Inside buf.length off h) {t : Option Bytes}
    (ht : target root (some prefixes) h.path = .ok t) :
    CanEnd (extractEntry buf root (some prefixes) owner h) () := by
  refine CanEnd.bind (a := t) (by rw [ht]; exact CanEnd.pure t) ?_
  cases t with
  | none => exact CanEnd.pure ()
  | some full =>
    dsimp only
    split
    · exact CanEnd.bind (mkdirParentsFrom_canEnd _ _ _) (CanEnd.bind (mkdir_canEnd full) (CanEnd.pure ()))
    · exact extractFile_canEnd hin

/-- The one call that counts is that which opens the file. -/
theorem extractFile_uses_iff (hin : Inside buf.length off h) :
    Uses (FileGated root prefixes) (extractFile buf full h owner).run ↔
      FileGated root prefixes (.call (.openTrunc full)) := by
  constructor
  · intro hu
    have hu := ((uses_bind_iff (mkdirParentsFrom_canEnd _ _ _) fun _ _ => rfl).mp hu).2
    have hopen : Uses (M := Posix.machine) (FileGated root prefixes) (Try.lift (Sys.openTrunc full) : Act _).run :=
      Uses.of_bind_left hu
    exact hopen.1
  · intro hopen
    exact (extractFile_does (fun _ _ _ => trivial) hopen (fun _ => trivial) trivial (fun _ _ _ => trivial) hin).1

theorem checked_bind {α β : Type} (a : α) (f : α → Act β) : (checked (.ok a) >>= f : Act β) = f a := rfl

theorem fileGated_openTrunc {rel : Bytes} : FileGated root prefixes (.call (.openTrunc (root ++ slash :: rel))) ↔
      ∃ q ∈ prefixes, q <+: rel ∧ q.length < rel.length := by
  constructor
  · rintro ⟨rel', he, hq⟩
    obtain rfl : rel = rel' := by simpa using he
    exact hq
  · exact fun hq => ⟨rel, rfl, hq⟩

theorem target_eq_ok {path : Bytes} {t : Option Bytes} (ht : target root (some prefixes) path = .ok t) :
    allowed prefixes path = true ∧ (t = none ↔ path = manifestName) := by
  unfold target at ht
  split at ht
  · cases ht
  rename_i ha
  have ha : allowed prefixes path = true := by simpa using ha
  split at ht
  · rename_i hm
    cases ht
    exact ⟨ha, iff_of_true rfl hm⟩
  rename_i hm
  split at ht
  · cases ht
  · cases ht
    exact ⟨ha, iff_of_false (by simp) hm⟩

theorem extractEntry_uses_iff (hslash : ∀ q ∈ prefixes, q.getLast? = some slash) (hrel : Rel h.path)
    (hflag : isFileFlag h.typeflag = true ∨ isDirFlag h.typeflag = true) (hin : Inside buf.length off h)
    {t : Option Bytes} (ht : target root (some prefixes) h.path = .ok t) :
    Uses (FileGated root prefixes) (extractEntry buf root (some prefixes) owner h).run ↔ NamesFile prefixes h := by
  have hfull : ∀ full, t = some full → full = root ++ slash :: stripTrailingSlash h.path :=
    (target_ends hrel).1 t ht
  obtain ⟨hallow, hman⟩ := target_eq_ok ht
  unfold extractEntry
  rw [ht, checked_bind]
  cases t with
  | none => exact iff_of_true trivial fun _ hm => absurd (hman.mp rfl) hm
  | some full =>
    obtain rfl := hfull full rfl
    have hman : h.path ≠ manifestName := fun he => by cases hman.mpr he
    dsimp only
    split
    · rename_i hd
      refine iff_of_true (mkdirP_does (fun _ _ _ => trivial) trivial).1 fun hf => ?_
      -- one flag is not both
      simp only [isDirFlag, decide_eq_true_eq] at hd
      rw [hd] at hf
      exact absurd hf (by decide)
    · rename_i hd
      rw [extractFile_uses_iff hin, fileGated_openTrunc, gated_iff hslash hallow hman]
      exact ⟨fun hq _ _ => hq, fun hq => hq (hflag.resolve_right hd) hman⟩

end

/-! ## The walk -/

theorem walk_uses_iff {buf root : Bytes} {prefixes : List Bytes} (hlen : buf.length + 512 < 2 ^ 64)
    (hslash : ∀ q ∈ prefixes, q.getLast? = some slash) (owner : Option Bytes) {n off : Nat} (zeroRun : Nat)
    (hoff : off ≤ buf.length) :
    Uses (FileGated root prefixes) (walk buf (.extract root (some prefixes) owner) n off zeroRun).run ↔
      ∀ h ∈ visited buf root prefixes n off zeroRun, NamesFile prefixes h := by
  induction n generalizing off zeroRun with
  | zero => exact iff_of_true trivial (forall_mem_nil _)
  | succ n ih =>
    have hw : wrap (off + tarBlock) = off + 512 := wrap_eq (lt_of_le_of_lt (Nat.add_le_add_right hoff 512) hlen)
    rw [walk, visited, hw]
    split
    · exact iff_of_true trivial (forall_mem_nil _)
    rename_i hfit
    have hends := readBlock_ends zeroRun (not_lt.mp hfit) (lt_of_le_of_lt (Nat.le_add_right _ _) hlen)
    cases hb : readBlock buf off zeroRun with
    | error e => exact iff_of_true trivial (forall_mem_nil _)
    | ok b =>
      rw [checked_bind]
      cases b with
      | final => exact iff_of_true trivial (forall_mem_nil _)
      | zero => exact ih _ (by omega)
      | entry h =>
        have hin := hends.1 _ hb h rfl
        have hnext : wrap (h.dataOff + h.padded) ≤ buf.length := by
          have := hin.padded
          rw [wrap_eq (by omega)]
          exact this
        dsimp only
        split
        · rename_i hflag
          split
          · exact iff_of_true trivial (forall_mem_nil _)
          rename_i hsafe
          have hrel : Rel h.path := pathIsSafe_rel (by simpa using hsafe)
          cases ht : target root (some prefixes) h.path with
          | error e =>
            refine iff_of_true ?_ (forall_mem_nil _)
            rw [extractEntry, ht]
            trivial
          | ok t =>
            rw [uses_bind_iff (extractEntry_canEnd hin ht) fun _ _ => rfl,
              extractEntry_uses_iff hslash hrel hflag hin ht, ih 0 hnext, forall_mem_cons]
        · exact ih 0 hnext

/-- Whatever the calls answer, each regular file that is opened is below a prefix and longer than
it, exactly if no regular file that the walk comes to has a name that ends in a slash without more
than that below a prefix. -/
theorem tar_files_gated_iff {buf : Bytes} (hlen : buf.length + 512 < 2 ^ 64) {prefixes : List Bytes}
    (hslash : ∀ q ∈ prefixes, q.getLast? = some slash) (root : Bytes) (owner : Option Bytes) :
    Uses (FileGated root prefixes) (tarWalk buf (.extract root (some prefixes) owner)).run ↔
      ∀ h ∈ visited buf root prefixes (buf.length / tarBlock + 1) 0 0, NamesFile prefixes h :=
  walk_uses_iff hlen hslash owner 0 (Nat.zero_le _)

theorem tar_files_gated_sample : Uses (FileGated (ascii "/r") [ascii "apps/a/"])
        (tarWalk (sampleTar (ascii "apps/a/run") 48) (.extract (ascii "/r") (some [ascii "apps/a/"]) none)).run ↔
      ∀ h ∈ visited (sampleTar (ascii "apps/a/run") 48) (ascii "/r") [ascii "apps/a/"]
          ((sampleTar (ascii "apps/a/run") 48).length / tarBlock + 1) 0 0, NamesFile [ascii "apps/a/"] h :=
  tar_files_gated_iff (by decide +kernel) (by decide +kernel) (ascii "/r") none

/-- A regular file with the name `apps/` is written as `apps`, though only `apps/a/` is allowed. -/
theorem tar_file_above_prefix : Posix.Op.call (.openTrunc (ascii "/r/apps")) ∈
      (tarWalk (sampleTar (ascii "apps/") 48) (.extract (ascii "/r") (some [ascii "apps/a/"]) none)).run.trace
        (fun _ => .ok) FileSys.empty := by
  decide +kernel

end Lorica.Proof.Herald

import Lorica.Framework.Does
import Lorica.Impl.Herald.Tar

/-!
# What the extraction of an archive reads and writes

Whatever the archive, and whatever the calls on files answer: the walk ends, reads inside the
buffer only, and creates the destination root, directories above it, and paths below it
(`tar_walk_contained`). An octal field of twelve digits is far from 64 bits, so no size wraps.
-/

namespace Lorica.Proof.Herald

open Lorica.Impl.Herald.Tar Lorica.Try List

/-! ## Headers -/

/-- An error of the archive or of a call, not one of the program. -/
def Reported (e : Stop) : Prop := ∃ t, e = .err t

variable {n off : Nat} {hdr buf p root : Bytes}

theorem fetch_ends {bs : Bytes} {i : Nat} (h : i + n ≤ bs.length) :
    Ends (fun f : Bytes => f.length = n) Reported (fetch bs i n) := by
  rw [fetch, if_pos h]
  refine ends_ok ?_
  simp only [length_take, length_drop]
  omega

theorem wrap_eq (h : n < 2 ^ 64) : wrap n = n := Nat.mod_eq_of_lt h

/-- Digits beside what is read already. -/
theorem octDigits_lt {cs : Bytes} {v k r : Nat} (hv : v < 8 ^ k) (hk : k + cs.length ≤ 20)
    (h : octDigits v cs = some r) : r < 8 ^ (k + cs.length) := by
  induction cs generalizing v k with
  | nil =>
    obtain rfl := Option.some.inj h
    exact hv
  | cons c cs ih =>
    simp only [length_cons] at hk ⊢
    rw [octDigits] at h
    split at h
    · obtain rfl := Option.some.inj h
      exact lt_of_lt_of_le hv (Nat.pow_le_pow_right (by decide) (by omega))
    split at h
    · cases h
    rename_i hc
    have hd : c.toNat - 48 < 8 := by
      have : ¬ 55 < c.toNat := fun h => hc (.inr h)
      omega
    have hv' : v * 8 + (c.toNat - 48) < 8 ^ (k + 1) := by rw [Nat.pow_succ]; omega
    have hbound : 8 ^ (k + 1) ≤ 8 ^ 20 := Nat.pow_le_pow_right (by decide) (by omega)
    rw [wrap_eq (by norm_num at hbound ⊢; omega)] at h
    have := ih hv' (by omega) h
    rwa [show k + 1 + cs.length = k + (cs.length + 1) by omega] at this

theorem octParse_lt {field : Bytes} {v : Nat} (hl : field.length ≤ 12) (h : octParse field = some v) :
    v < 8 ^ 12 := by
  have hd : (field.dropWhile (· = space)).length ≤ 12 := (length_dropWhile_le _ _).trans hl
  have hv := octDigits_lt (k := 0) (by decide) (by omega) h
  exact lt_of_lt_of_le hv (Nat.pow_le_pow_right (by decide) (by omega))

/-- The padded size of an entry does not wrap. -/
theorem paddedSize_eq {size : Nat} (h : size < 8 ^ 12) :
    paddedSize size = (size + 511) / 512 * 512 ∧ size ≤ paddedSize size := by
  have hb : (size + 511) / 512 * 512 ≤ size + 511 := Nat.div_mul_le_self _ _
  have hs : size + 511 < 2 ^ 64 := by norm_num at h ⊢; omega
  have he : paddedSize size = (size + 511) / 512 * 512 := by
    rw [paddedSize, tarBlock, wrap_eq hs, wrap_eq (lt_of_le_of_lt hb hs)]
  exact ⟨he, by rw [he]; omega⟩

theorem octField_ends {i : Nat} (hi : i + n ≤ hdr.length) (hn : n ≤ 12) (e : TarError) :
    Ends (fun v => v < 8 ^ 12) Reported (octField hdr i n e) := by
  refine (fetch_ends hi).bind fun field hf => ?_
  cases hp : octParse field with
  | none => exact ends_error ⟨e, rfl⟩
  | some v => exact ends_ok (octParse_lt (by omega) hp)

theorem buildPath_ends (hl : hdr.length = 512) : Ends (fun _ => True) Reported (buildPath hdr) := by
  refine (fetch_ends (by rw [hl]; decide)).bind fun _ _ => ?_
  refine (fetch_ends (by rw [hl]; decide)).bind fun _ _ => ?_
  dsimp only
  split
  · split
    · exact ends_error ⟨.entryTooLong, rfl⟩
    · exact ends_ok trivial
  · split
    · exact ends_error ⟨.entryTooLong, rfl⟩
    · exact ends_ok trivial

/-- The data of an entry is inside the buffer. -/
structure Inside (len off : Nat) (h : Header) : Prop where
  dataOff : h.dataOff = off + 512
  padded : h.dataOff + h.padded ≤ len
  size : h.size ≤ h.padded

theorem readHeader_ends {len : Nat} (hl : hdr.length = 512) (hoff : off + 512 < 2 ^ 64) :
    Ends (Inside len off) Reported (readHeader len off hdr) := by
  refine (fetch_ends (by rw [hl]; decide)).bind fun magic _ => ?_
  dsimp only
  split
  · exact ends_error ⟨.badMagic, rfl⟩
  refine (octField_ends (by rw [hl]; decide) (by decide) _).bind fun size hs => ?_
  refine (octField_ends (by rw [hl]; decide) (by decide) _).bind fun _ _ => ?_
  refine (fetch_ends (by rw [hl]; decide)).bind fun flag _ => ?_
  split
  · exact ends_error ⟨.truncated, rfl⟩
  rename_i hfit
  refine (buildPath_ends hl).bind fun raw _ => ends_ok ?_
  have hd : wrap (off + tarBlock) = off + 512 := wrap_eq hoff
  exact ⟨hd, by show wrap _ + paddedSize size ≤ len; omega, (paddedSize_eq hs).2⟩

theorem readBlock_ends (zeroRun : Nat) (hfit : off + 512 ≤ buf.length) (hlen : buf.length < 2 ^ 64) :
    Ends (fun b => ∀ h, b = .entry h → Inside buf.length off h) Reported (readBlock buf off zeroRun) := by
  refine (fetch_ends hfit).bind fun hdr hl => ?_
  split
  · split <;> exact ends_ok (fun _ h => by cases h)
  refine (fetch_ends (by rw [hl]; decide)).bind fun name _ => ?_
  split
  · exact ends_ok (fun _ h => by cases h)
  refine (readHeader_ends hl (by omega)).bind fun h hin => ends_ok fun _ he => ?_
  cases he
  exact hin

/-! ## Paths -/

/-- A relative path without a component `..`. -/
structure Rel (p : Bytes) : Prop where
  ne_nil : p ≠ []
  relative : p.head? ≠ some slash
  down : dotdot ∉ p.splitOn slash

theorem splitOn_append_slash (a b : Bytes) : (a ++ slash :: b).splitOn slash = a.splitOn slash ++ b.splitOn slash :=
  splitOn_append_cons_self ..

/-- Slashes at the start of a path make empty components only. -/
theorem mem_splitOn_dropWhile (h : dotdot ∈ p.splitOn slash) :
    dotdot ∈ (p.dropWhile (· = slash)).splitOn slash := by
  induction p with
  | nil => exact h
  | cons b p ih =>
    by_cases hb : b = slash
    · subst hb
      have hsplit := splitOn_append_slash [] p
      rw [nil_append] at hsplit
      rw [hsplit, mem_append] at h
      exact ih (h.resolve_left (by decide))
    · rwa [dropWhile_cons_of_neg (by simpa using hb)]

/-- A component `..` at the start is seen. -/
theorem dotdotAt_of_eq {r : Bytes} (h : p = dotdot ∨ p = dotdot ++ slash :: r) : dotdotAt p = true := by
  rcases h with rfl | rfl
  · decide
  · simp [dotdotAt, dotdot]

theorem scanComponents_down (hn : p.length ≤ n) (h : scanComponents n p = true) : dotdot ∉ p.splitOn slash := by
  induction n generalizing p with
  | zero =>
    obtain rfl := length_eq_zero_iff.mp (Nat.le_zero.mp hn)
    decide
  | succ n ih =>
    by_cases hp : p = []
    · subst hp; decide
    rw [scanComponents, if_neg hp] at h
    split at h
    · cases h
    rename_i hdd
    have hsplit : p.takeWhile (· ≠ slash) ++ p.dropWhile (· ≠ slash) = p := takeWhile_append_dropWhile
    have hcomp : slash ∉ p.takeWhile (· ≠ slash) := fun hm => by simpa using mem_takeWhile_imp hm
    have hslash : ∀ b rest, p.dropWhile (· ≠ slash) = b :: rest → b = slash := fun b rest hr => by
      have := head?_dropWhile_not (fun c => decide (c ≠ slash)) p
      rw [hr] at this
      simpa using this
    generalize p.takeWhile (· ≠ slash) = comp at hsplit hcomp
    generalize p.dropWhile (· ≠ slash) = rest at hsplit h hslash
    subst hsplit
    cases rest with
    | nil =>
      rw [append_nil] at hdd ⊢
      rw [splitOn_eq_singleton hcomp, mem_singleton]
      exact fun he => hdd (dotdotAt_of_eq (r := []) (.inl he.symm))
    | cons b rest =>
      obtain rfl := hslash b rest rfl
      rw [splitOn_append_slash, splitOn_eq_singleton hcomp, mem_append, mem_singleton]
      rintro (he | hm)
      · exact hdd (dotdotAt_of_eq (.inr (by rw [he])))
      · rw [dropWhile_cons_of_pos (by simp)] at h
        refine ih ?_ h (mem_splitOn_dropWhile hm)
        have := length_dropWhile_le (fun c => decide (c = slash)) rest
        simp only [length_append, length_cons] at hn
        omega

theorem pathIsSafe_rel (h : pathIsSafe p = true) : Rel p := by
  simp only [pathIsSafe, Bool.and_eq_true, decide_eq_true_eq] at h
  exact ⟨h.1.1, h.1.2, scanComponents_down le_rfl h.2⟩

/-- What stands before a slash in such a path. -/
theorem Rel.left {a b : Bytes} (h : Rel (a ++ slash :: b)) : Rel a := by
  have hne : a ≠ [] := by
    rintro rfl
    exact h.relative rfl
  refine ⟨hne, ?_, fun hm => h.down ?_⟩
  · have := h.relative
    rwa [head?_append_of_ne_nil _ hne] at this
  · rw [splitOn_append_slash]
    exact mem_append_left _ hm

theorem Rel.stripTrailingSlash (h : Rel p) : Rel (stripTrailingSlash p) := by
  unfold Impl.Herald.Tar.stripTrailingSlash
  split
  · rename_i hl
    have he : p = p.dropLast ++ slash :: [] := (dropLast_append_getLast? slash hl).symm
    rw [he] at h
    exact h.left
  · exact h

/-- The root, a path above it, or one below it. -/
def Within (root p : Bytes) : Prop :=
  p = root ∨ (∃ rest, root = p ++ slash :: rest) ∨ ∃ rel, p = root ++ slash :: rel ∧ Rel rel

/-- What stands before a slash of a path below the root. -/
theorem within_of_split {rel a b : Bytes} (hrel : Rel rel) (h : a ++ slash :: b = root ++ slash :: rel) :
    Within root a := by
  rcases append_eq_append_iff.mp h with ⟨c, rfl, hc⟩ | ⟨c, rfl, hc⟩
  · cases c with
    | nil => exact .inl (by simp)
    | cons x c =>
      obtain ⟨rfl, -⟩ := cons.inj hc
      exact .inr (.inl ⟨c, rfl⟩)
  · cases c with
    | nil => exact .inl (by simp)
    | cons x c =>
      obtain ⟨rfl, rfl⟩ := cons.inj hc
      exact .inr (.inr ⟨c, by simp, hrel.left⟩)

/-! ## Entries -/

/-- A part of the extraction that makes operations in `P` only, and ends well or in an error that
is reported. -/
abbrev Extracts {α : Type} (P : Posix.Op → Prop) (p : Act α) : Prop := Does P (fun _ => True) Reported p

section

variable {P : Posix.Op → Prop} {full : Bytes}

theorem checked_does {α : Type} {Q : α → Prop} {E : Stop → Prop} {x : Except Stop α}
    (h : Ends Q E x) : Does (M := Posix.machine) P Q E (checked x) :=
  ⟨trivial, h⟩

theorem call_does {o : Posix.Op} (h : P o) : Extracts P (Try.lift (Prog.call (M := Posix.machine) o)) :=
  Does.lift (Uses.call h)

theorem mkdirOrExists_does (h : P (.call (.mkdir full))) (e : TarError) : Extracts P (mkdirOrExists full e) := by
  refine (call_does h).bind fun r _ => ?_
  cases r with
  | ok _ => exact Does.pure trivial
  | error c =>
    dsimp only
    split
    · exact Does.pure trivial
    · exact Does.throw ⟨e, rfl⟩

section

variable (hP : ∀ a b, a ++ slash :: b = full → P (.call (.mkdir a)))

include hP

theorem mkdirParentsFrom_does (e : TarError)
    {done rest : Bytes} (h : done ++ rest = full) : Extracts P (mkdirParentsFrom e done rest) := by
  induction rest generalizing done with
  | nil => exact Does.pure trivial
  | cons b rest ih =>
    have hnext : Extracts P (mkdirParentsFrom e (done ++ [b]) rest) := ih (by rw [append_assoc]; exact h)
    rw [mkdirParentsFrom]
    split
    · rename_i hb
      subst hb
      exact (mkdirOrExists_does (hP done rest h) e).bind fun _ _ => hnext
    · exact hnext

theorem mkdirParents_does (e : TarError) :
    Extracts P (mkdirParents e full) :=
  mkdirParentsFrom_does hP e (take_append_drop 1 _)

theorem mkdirP_does (hfull : P (.call (.mkdir full))) :
    Extracts P (mkdirP full) :=
  (mkdirParents_does hP _).bind fun _ _ => mkdirOrExists_does hfull _

end

theorem writeData_does {buf : Bytes} {dataOff size : Nat} (hw : ∀ bs, P (.write full bs)) (hc : P (.close full))
    (hfit : dataOff + size ≤ buf.length) {n written : Nat} (hn : size ≤ n + written) :
    Extracts P (writeData buf full dataOff size n written) := by
  induction n generalizing written with
  | zero =>
    rw [writeData, if_pos (by omega)]
    exact Does.pure trivial
  | succ n ih =>
    rw [writeData]
    split
    · exact Does.pure trivial
    refine (checked_does (fetch_ends (by omega))).bind fun chunk _ => (call_does (hw chunk)).bind fun r _ => ?_
    cases r with
    | error c => exact (call_does hc).bind fun _ _ => Does.throw ⟨.writeFailed, rfl⟩
    | ok w =>
      dsimp only
      split
      · exact (call_does hc).bind fun _ _ => Does.throw ⟨.shortWrite, rfl⟩
      · exact ih (by omega)

theorem writeOwner_does {o path : Bytes} (hw : ∀ bs, P (.write o bs)) : Extracts P (writeOwner o path) := by
  refine (call_does (hw path)).bind fun r _ => ?_
  cases r with
  | error c => exact Does.throw ⟨.ownerFailed, rfl⟩
  | ok w =>
    dsimp only
    split
    · exact Does.throw ⟨.ownerFailed, rfl⟩
    refine (call_does (hw [newline])).bind fun r _ => ?_
    cases r with
    | error c => exact Does.throw ⟨.ownerFailed, rfl⟩
    | ok w =>
      dsimp only
      split
      · exact Does.throw ⟨.ownerFailed, rfl⟩
      · exact Does.pure trivial

theorem extractFile_does {buf : Bytes} {off : Nat} {h : Header} {owner : Option Bytes}
    (hP : ∀ a b, a ++ slash :: b = full → P (.call (.mkdir a))) (hopen : P (.call (.openTrunc full)))
    (hw : ∀ bs, P (.write full bs)) (hc : P (.close full)) (howner : ∀ o, owner = some o → ∀ bs, P (.write o bs))
    (hin : Inside buf.length off h) : Extracts P (extractFile buf full h owner) := by
  have hfit : h.dataOff + h.size ≤ buf.length := by
    have := hin.padded
    have := hin.size
    omega
  refine (mkdirParents_does hP _).bind fun _ _ => (call_does hopen).bind fun r _ => ?_
  cases r with
  | error c => exact Does.throw ⟨.openFailed, rfl⟩
  | ok _ =>
    refine (writeData_does hw hc hfit (by omega)).bind fun _ _ => (call_does hc).bind fun ok _ => ?_
    split
    · cases owner with
      | none => exact Does.pure trivial
      | some o => exact writeOwner_does (howner o rfl)
    · exact Does.throw ⟨.closeFailed, rfl⟩

end

/-- Where an entry with a safe path goes. -/
theorem target_ends {prefixes : Option (List Bytes)} {path : Bytes} (hrel : Rel path) :
    Ends (fun t => ∀ full, t = some full → full = root ++ slash :: stripTrailingSlash path) Reported
      (target root prefixes path) := by
  unfold target
  split
  · exact ends_error ⟨.outside, rfl⟩
  split
  · exact ends_ok (fun _ h => by cases h)
  split
  · exact ends_error ⟨.targetTooLong, rfl⟩
  refine ends_ok fun full he => ?_
  cases he
  have hne : slash :: path ≠ [] := cons_ne_nil _ _
  simp only [stripTrailingSlash, getLast?_append_of_ne_nil _ hne, getLast?_cons_of_ne_nil hrel.ne_nil]
  split
  · rw [dropLast_append_of_ne_nil hne, dropLast_cons_of_ne_nil hrel.ne_nil]
  · rfl

/-- The operations of an extraction below `root`; the list of what a package owns is open
before it. -/
def Contained (root : Bytes) (owner : Option Bytes) : Posix.Op → Prop
  | .call (.mkdir p) => Within root p
  | .call (.openTrunc p) => Within root p
  | .write p _ => Within root p ∨ owner = some p
  | .close p => Within root p
  | _ => False

theorem extractEntry_does {h : Header} {prefixes : Option (List Bytes)}
    {owner : Option Bytes} (hrel : Rel h.path) (hin : Inside buf.length off h) :
    Extracts (Contained root owner) (extractEntry buf root prefixes owner h) := by
  have hrel' := hrel.stripTrailingSlash
  have hfull : Within root (root ++ slash :: stripTrailingSlash h.path) := .inr (.inr ⟨_, rfl, hrel'⟩)
  refine (checked_does (target_ends hrel)).bind fun t ht => ?_
  cases t with
  | none => exact Does.pure trivial
  | some full =>
    obtain rfl := ht full rfl
    dsimp only
    split
    · exact mkdirP_does (fun a b he => within_of_split hrel' he) hfull
    · exact extractFile_does (fun a b he => within_of_split hrel' he) hfull (fun _ => .inl hfull) hfull
        (fun o ho _ => .inr ho) hin

/-! ## The walk -/

/-- Each round takes a block at least; where the buffer ends, so does the walk. -/
theorem walk_does {P : Posix.Op → Prop} (hlen : buf.length + 512 < 2 ^ 64) (m : Mode)
    (hm : ∀ root prefixes owner, m = .extract root prefixes owner → ∀ off h, Rel h.path → Inside buf.length off h →
      Does P (fun _ => True) Reported (extractEntry buf root prefixes owner h)) (zeroRun : Nat)
        (hoff : off ≤ buf.length) (hn : buf.length < off + 512 * n) :
    Does P (fun _ => True) Reported (walk buf m n off zeroRun) := by
  induction n generalizing off zeroRun with
  | zero => omega
  | succ n ih =>
    have hw : wrap (off + tarBlock) = off + 512 := wrap_eq (lt_of_le_of_lt (Nat.add_le_add_right hoff 512) hlen)
    rw [walk, hw]
    split
    · exact Does.pure trivial
    rename_i hfit
    refine (checked_does (readBlock_ends zeroRun (not_lt.mp hfit)
      (lt_of_le_of_lt (Nat.le_add_right _ _) hlen))).bind fun b hb => ?_
    cases b with
    | final => exact Does.pure trivial
    | zero => exact ih _ (by omega) (by omega)
    | entry h =>
      have hin := hb h rfl
      have hnext (z : Nat) : Does P (fun _ => True) Reported (walk buf m n (wrap (h.dataOff + h.padded)) z) := by
        have := hin.padded
        have := hin.dataOff
        rw [wrap_eq (by omega)]
        exact ih z (by omega) (by omega)
      dsimp only
      split
      · split
        · exact Does.throw ⟨.unsafePath, rfl⟩
        rename_i hsafe
        have hrel : Rel h.path := pathIsSafe_rel (by simpa using hsafe)
        cases m with
        | find name =>
          dsimp only
          split
          · exact Does.pure trivial
          · exact hnext 0
        | extract root prefixes owner => exact (hm root prefixes owner rfl off h hrel hin).bind fun _ _ => hnext 0
      · exact hnext 0

/-- For every archive in memory: the walk ends, well or in an error it reports, and so reads no
byte outside the buffer; the size of an entry with its padding does not wrap; an extraction
creates and opens only the root, what is above it, and relative paths below it without `..`; and a
search opens nothing. -/
theorem tar_walk_contained {buf : Bytes} (hlen : buf.length + 512 < 2 ^ 64) : (∀ root prefixes owner,
        Does (Contained root owner) (fun _ => True) Reported (tarWalk buf (.extract root prefixes owner))) ∧
      (∀ name, Does (fun _ => False) (fun _ => True) Reported (tarWalk buf (.find name))) ∧
      ∀ field size, field.length ≤ 12 → octParse field = some size →
        paddedSize size = (size + 511) / 512 * 512 ∧ size ≤ paddedSize size := by
  have hrounds : buf.length < 0 + 512 * (buf.length / tarBlock + 1) := by
    rw [show tarBlock = 512 from rfl]
    omega
  refine ⟨fun root prefixes owner => ?_, fun name => ?_, fun field size hl hs => paddedSize_eq (octParse_lt hl hs)⟩
  · refine walk_does hlen _ (fun r p o he off h hrel hin => ?_) 0 (Nat.zero_le _) hrounds
    cases he
    exact extractEntry_does hrel hin
  · exact walk_does hlen _ (fun r p o he => by cases he) 0 (Nat.zero_le _) hrounds

/-- An archive of one entry without data. -/
def sampleTar (name : Bytes) (typeflag : UInt8) : Bytes :=
  name ++ replicate (100 - name.length) 0 ++ ascii "0000644" ++ [0] ++ replicate 16 0 ++
    ascii "00000000000" ++ [0] ++ replicate 20 0 ++ [typeflag] ++ replicate 100 0 ++ ascii "ustar" ++ [0] ++
    replicate 249 0

theorem tar_walk_contained_sample : (∀ root prefixes owner, Does (Contained root owner) (fun _ => True) Reported
        (tarWalk (sampleTar (ascii "apps/a/run") 48) (.extract root prefixes owner))) ∧
      (∀ name, Does (fun _ => False) (fun _ => True) Reported
        (tarWalk (sampleTar (ascii "apps/a/run") 48) (.find name))) ∧
      ∀ field size, field.length ≤ 12 → octParse field = some size →
        paddedSize size = (size + 511) / 512 * 512 ∧ size ≤ paddedSize size :=
  tar_walk_contained (by decide +kernel)

end Lorica.Proof.Herald

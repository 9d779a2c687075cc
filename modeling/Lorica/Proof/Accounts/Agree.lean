import Lorica.Impl.Accounts.Useradd

/-!
# The writer and the readers of accounts

`useradd` appends a line to `/etc/passwd` and one to `/etc/shadow`, and `libauth` reads them
back. The shell is written as it was given, so that a colon or a newline in it ends the field or
the line, and a long one does not fit into the reader's buffer; an old line of `/etc/shadow` for
the name is found before the new one; and after the highest `int` comes the lowest. Apart from
these, both sides agree (`accounts_agree_iff`).
-/

namespace Lorica.Proof.Accounts

open Lorica.Impl.Accounts List

/-! ## Fields -/

variable {a u r : Bytes} {i : Int} {size : Nat} {s : Scan} {ls : List Bytes}

theorem strchr_append {c : UInt8} (h : c ∉ a) (b : Bytes) : strchr c (a ++ c :: b) = some (a, b) := by
  have htake : (a ++ c :: b).takeWhile (· ≠ c) = a := takeWhile_ne_of_not_mem h b
  have hdrop : (a ++ c :: b).dropWhile (· ≠ c) = c :: b := by
    have := takeWhile_append_dropWhile (p := (· ≠ c)) (l := a ++ c :: b)
    rw [htake] at this
    exact append_cancel_left this
  rw [strchr, if_pos (by simp), htake, hdrop]
  rfl

theorem strchr_eq_some {c : UInt8} {s b : Bytes} : strchr c s = some (a, b) ↔ s = a ++ c :: b ∧ c ∉ a := by
  constructor
  · intro h
    by_cases hc : c ∈ s
    · obtain ⟨a', b', hs, ha'⟩ := eq_append_cons_of_mem hc
      rw [hs, strchr_append ha'] at h
      cases h
      exact ⟨hs, ha'⟩
    · rw [strchr, if_neg hc] at h
      cases h
  · rintro ⟨rfl, ha⟩
    exact strchr_append ha b

theorem splitFields_cons (h : colon ∉ a) (n : Nat) (b : Bytes) :
    splitFields (n + 1) (a ++ colon :: b) = (a :: (splitFields n b).1, (splitFields n b).2) := by
  rw [splitFields, strchr_append h]

/-- The first field is what stands before the first colon. -/
theorem passwdFields_name {line : Bytes} {fields : List Bytes} (h : passwdFields line = some fields) :
    ∃ rest, strchr colon (cstr line) = some (fields.getD 0 [], rest) := by
  cases hc : strchr colon (cstr line) with
  | none =>
    simp [passwdFields, splitFields, hc] at h
  | some r =>
    obtain ⟨name, rest⟩ := r
    rw [passwdFields, splitFields, hc] at h
    dsimp only at h
    refine ⟨rest, ?_⟩
    split at h
    · split at h
      · cases h
      · cases h
        rfl
    · split at h
      · cases h
      · cases h
        rfl

/-- A line that another name stands before. -/
theorem passwdEntry_eq_none {username name rest line : Bytes} {m n : Nat}
    (h : strchr colon (cstr line) = some (name, rest)) (hne : name ≠ username) :
    passwdEntry username m n line = none := by
  cases hf : passwdFields line with
  | none => simp [passwdEntry, hf]
  | some fields =>
    obtain ⟨rest', hr⟩ := passwdFields_name hf
    rw [h] at hr
    have hname : name = fields.getD 0 [] := congrArg Prod.fst (Option.some.inj hr)
    simp only [passwdEntry, hf, Option.bind_eq_bind, Option.bind_some, ← hname, ne_eq, hne, not_false_eq_true, if_true]

theorem passwdEntry_of_strchr_none {username line : Bytes} {m n : Nat} (h : strchr colon (cstr line) = none) :
    passwdEntry username m n line = none := by
  simp [passwdEntry, passwdFields, splitFields, h]

/-! ## The new line -/

/-- What is known of a name that was accepted. -/
structure ValidUser (u : Bytes) : Prop where
  no_colon : colon ∉ u
  no_newline : newline ∉ u
  no_nul : (0 : UInt8) ∉ u
  length_le : u.length ≤ 31

theorem ValidUser.of_installUsernameValid (h : installUsernameValid u = true) : ValidUser u := by
  simp only [installUsernameValid, Bool.and_eq_true, decide_eq_true_eq, all_eq_true] at h
  obtain ⟨⟨-, hall⟩, hlen⟩ := h
  have hnot (b : UInt8) (hb : (isLower b || isDigit b || b = 95 || b = 45) = false) : b ∉ u :=
    fun hmem => by rw [hall b hmem] at hb; cases hb
  exact ⟨hnot _ (by decide), hnot _ (by decide), hnot _ (by decide), hlen⟩

theorem decimalInt_not_mem {b : UInt8} (hminus : b ≠ 45) (hdigit : isDigit b = false) : b ∉ decimalInt i := by
  intro h
  rcases mem_decimalInt h with rfl | hb
  · exact hminus rfl
  · rw [hb] at hdigit; cases hdigit

theorem passwdHead_append (u : Bytes) (i : Int) (r : Bytes) :
    passwdHead u i ++ r = u ++ colon :: (ascii "x" ++ colon :: (decimalInt i ++ colon :: (decimalInt i ++ colon ::
      (u ++ colon :: ((ascii "/home/" ++ u) ++ colon :: r))))) := by
  have hx : ascii ":x:" = colon :: (ascii "x" ++ [colon]) := by decide
  have hc : ascii ":" = [colon] := by decide
  have hh : ascii ":/home/" = colon :: ascii "/home/" := by decide
  rw [passwdHead, hx, hc, hh]
  simp only [append_assoc, cons_append, nil_append]

theorem length_passwdHead_le (hu : ValidUser u) (hl : -2 ^ 31 ≤ i) (hi : i < 2 ^ 31) :
    (passwdHead u i).length ≤ 128 := by
  have h := congrArg length (passwdHead_append u i [])
  have hx : (ascii "x").length = 1 := by decide
  have hh : (ascii "/home/").length = 6 := by decide
  have hd := length_decimalInt_le hl hi
  have hn := hu.length_le
  simp only [append_nil, length_append, length_cons, length_nil, hx, hh] at h
  omega

/-- The last field, cut at a colon or at the end of the line. -/
def shellOf (r : Bytes) : Bytes := if colon ∈ r then r.takeWhile (· ≠ colon) else r.takeWhile (· ≠ newline)

/-- The reader's fields of a line that starts as the new one does. -/
theorem passwdFields_head (hu : ValidUser u) (i : Int) (hr : (0 : UInt8) ∉ passwdHead u i ++ r) :
    passwdFields (passwdHead u i ++ r) =
      some [u, ascii "x", decimalInt i, decimalInt i, u, ascii "/home/" ++ u, shellOf r] := by
  have hd : colon ∉ decimalInt i := decimalInt_not_mem (by decide) (by decide)
  have hx : colon ∉ ascii "x" := by decide
  have hh : colon ∉ ascii "/home/" ++ u := by
    rw [mem_append, not_or]
    exact ⟨by decide, hu.no_colon⟩
  have hsplit : splitFields 7 (passwdHead u i ++ r) = (u :: ascii "x" :: decimalInt i :: decimalInt i :: u ::
      (ascii "/home/" ++ u) :: (splitFields 1 r).1, (splitFields 1 r).2) := by
    rw [passwdHead_append, splitFields_cons hu.no_colon, splitFields_cons hx, splitFields_cons hd,
      splitFields_cons hd, splitFields_cons hu.no_colon, splitFields_cons hh]
  rw [passwdFields, cstr_of_not_mem hr, hsplit]
  by_cases hc : colon ∈ r
  · simp [splitFields, strchr, hc, shellOf]
  · simp [splitFields, strchr, hc, shellOf]

theorem strchr_passwdHead (hu : ValidUser u) (i : Int) (hr : (0 : UInt8) ∉ passwdHead u i ++ r) :
    ∃ rest, strchr colon (cstr (passwdHead u i ++ r)) = some (u, rest) := by
  rw [cstr_of_not_mem hr, passwdHead_append, strchr_append hu.no_colon]
  exact ⟨_, rfl⟩

theorem shellOf_initial (r : Bytes) : shellOf r <+: r := by
  rw [shellOf]
  split
  · exact takeWhile_prefix _
  · exact takeWhile_prefix _

/-- What the reader makes of the line for the new name. -/
theorem passwdEntry_head (hu : ValidUser u) (hl : -2 ^ 31 ≤ i) (hi : i < 2 ^ 31)
    (hr : (0 : UInt8) ∉ passwdHead u i ++ r) (hlen : (passwdHead u i ++ r).length ≤ 255) :
    passwdEntry u 256 256 (passwdHead u i ++ r) = some ⟨i, i, ascii "/home/" ++ u, shellOf r⟩ := by
  have hhome : (ascii "/home/" ++ u).length ≤ 255 := by
    have hh : (ascii "/home/").length = 6 := by decide
    have := hu.length_le
    rw [length_append]
    omega
  have hshell : (shellOf r).length ≤ 255 := by
    have := (shellOf_initial r).length_le
    rw [length_append] at hlen
    omega
  have hentry : passwdEntry u 256 256 (passwdHead u i ++ r) = some ⟨atoi (decimalInt i), atoi (decimalInt i),
      (ascii "/home/" ++ u).take 255, (shellOf r).take 255⟩ := by
    rw [passwdEntry, passwdFields_head hu i hr]
    simp
  rw [hentry, atoi_decimalInt hl hi, take_of_length_le hhome, take_of_length_le hshell]

/-! ## How the new line is read -/

theorem fgetsLines_skip {acc : Bytes} (ha : newline ∉ a) (hs : acc.length + a.length + 2 ≤ size)
    (r : Bytes) : fgetsLines size acc (a ++ r) = fgetsLines size (acc ++ a) r := by
  induction a generalizing acc with
  | nil => simp
  | cons b a ih =>
    simp only [mem_cons, not_or] at ha
    simp only [length_cons] at hs
    rw [cons_append, fgetsLines, if_neg (by simp only [Ne.symm ha.1, false_or]; omega),
      ih ha.2 (by simp only [length_append, length_singleton]; omega), append_assoc, singleton_append]

/-- The first buffer has the start of what is read, and no more than fits. -/
theorem fgetsLines_first {acc : Bytes} (hne : r ≠ []) (hs : acc.length + 2 ≤ size) :
    ∃ x more, fgetsLines size acc r = (acc ++ x) :: more ∧ x <+: r ∧ (acc ++ x).length + 1 ≤ size := by
  induction r generalizing acc with
  | nil => exact absurd rfl hne
  | cons b r ih =>
    have hlen : (acc ++ [b]).length = acc.length + 1 := by simp
    rw [fgetsLines]
    split
    · exact ⟨[b], _, rfl, ⟨r, rfl⟩, by omega⟩
    · rename_i hb
      by_cases hr : r = []
      · subst hr
        exact ⟨[b], [], by simp [fgetsLines], prefix_rfl, by omega⟩
      · obtain ⟨x, more, hx, hp, hle⟩ := ih hr (show (acc ++ [b]).length + 2 ≤ size by omega)
        refine ⟨b :: x, more, by simpa using hx, by simpa using hp, by simpa using hle⟩

/-- A line that fits without its newline is read in one buffer, or the newline in another. -/
theorem fgetsLines_body {l : Bytes} (hl : newline ∉ l) (hs : l.length + 1 ≤ size) (hne : l ≠ []) :
    l.length + 2 ≤ size ∧ fgetsLines size [] (l ++ [newline]) = [l ++ [newline]] ∨
      fgetsLines size [] (l ++ [newline]) = [l, [newline]] := by
  by_cases hfit : l.length + 2 ≤ size
  · exact .inl ⟨hfit, fgetsLines_line hl hfit []⟩
  · obtain ⟨a, b, rfl⟩ := eq_nil_or_concat l |>.resolve_left hne
    simp only [concat_eq_append, length_append, length_singleton, mem_append, mem_singleton,
      not_or] at hl hs hfit ⊢
    rw [append_assoc, fgetsLines_skip hl.1 (by simp only [length_nil]; omega), nil_append,
      singleton_append, fgetsLines, if_pos (.inr (by omega))]
    simp [fgetsLines]

/-! ## The scan -/

/-- The user id of a line: the number in its third field. -/
def LineUid (line : Bytes) (u : Int) : Prop :=
  ∃ name pw third rest, cstr line = name ++ colon :: (pw ++ colon :: (third ++ rest)) ∧
    colon ∉ name ∧ colon ∉ pw ∧ colon ∉ third ∧ (rest = [] ∨ rest.head? = some colon) ∧ u = atoi third

theorem atoi_third (third : Bytes) {rest : Bytes} (h : rest = [] ∨ rest.head? = some colon) :
    atoi (third ++ rest) = atoi third := by
  rcases h with rfl | h
  · rw [append_nil]
  · obtain ⟨rest', rfl⟩ := head?_eq_some_iff.1 h
    exact atoi_append third (by decide) (by decide) (by decide) (by decide) rest'

/-- The scan reads the number to the end of the line, which is the same. -/
theorem lineUid_iff {line : Bytes} {u : Int} : LineUid line u ↔
    ∃ name p pw q, strchr colon (cstr line) = some (name, p) ∧ strchr colon p = some (pw, q) ∧ u = atoi q := by
  constructor
  · rintro ⟨name, pw, third, rest, hl, hname, hpw, -, hrest, rfl⟩
    exact ⟨name, _, pw, _, strchr_eq_some.2 ⟨hl, hname⟩, strchr_append hpw _, (atoi_third third hrest).symm⟩
  · rintro ⟨name, p, pw, q, hp, hq, rfl⟩
    obtain ⟨hl, hname⟩ := strchr_eq_some.1 hp
    obtain ⟨rfl, hpw⟩ := strchr_eq_some.1 hq
    have hthird : colon ∉ q.takeWhile (· ≠ colon) := fun h => by simpa using mem_takeWhile_imp h
    have hrest : q.dropWhile (· ≠ colon) = [] ∨ (q.dropWhile (· ≠ colon)).head? = some colon := by
      cases hd : q.dropWhile (· ≠ colon) with
      | nil => exact .inl rfl
      | cons b r =>
        have := head_dropWhile_not (· ≠ colon) (l := q) (by rw [hd]; simp)
        simp only [hd, head_cons] at this
        exact .inr (by simpa using this)
    have hq : q.takeWhile (· ≠ colon) ++ q.dropWhile (· ≠ colon) = q := takeWhile_append_dropWhile
    refine ⟨name, pw, _, _, by rw [hq]; exact hl, hname, hpw, hthird, hrest, ?_⟩
    have hsame := atoi_third (q.takeWhile (· ≠ colon)) hrest
    rwa [hq] at hsame

/-- The user id of a line, computed as the scan does. -/
def readUid (line : Bytes) : Option Int :=
  ((strchr colon (cstr line)).bind fun r => strchr colon r.2).map fun r => atoi r.2

theorem lineUid_iff_readUid {line : Bytes} {u : Int} : LineUid line u ↔ readUid line = some u := by
  rw [lineUid_iff]
  constructor
  · rintro ⟨name, p, pw, q, hp, hq, rfl⟩
    rw [readUid, hp, Option.bind_some, hq, Option.map_some]
  · intro h
    simp only [readUid, Option.map_eq_some_iff, Option.bind_eq_some_iff] at h
    obtain ⟨⟨pw, q⟩, ⟨⟨name, p⟩, hp, hq⟩, rfl⟩ := h
    exact ⟨name, p, pw, q, hp, hq, rfl⟩

instance (line : Bytes) (u : Int) : Decidable (LineUid line u) := decidable_of_iff _ lineUid_iff_readUid.symm

theorem scanLine_taken {line : Bytes} (h : (scanLine u s line).taken = false) :
    s.taken = false ∧ ∀ rest, strchr colon (cstr line) ≠ some (u, rest) := by
  cases hc : strchr colon (cstr line) with
  | none =>
    simp only [scanLine, hc] at h
    exact ⟨h, fun rest => by simp⟩
  | some r =>
    obtain ⟨name, p⟩ := r
    have htaken : (scanLine u s line).taken =
        (if name.length = u.length ∧ (cstr line).take u.length = u then true else s.taken) := by
      simp only [scanLine, hc]
      cases strchr colon p with
      | none => dsimp only; split <;> rfl
      | some q =>
        dsimp only
        split
        · split <;> rfl
        · split <;> rfl
    rw [htaken] at h
    split at h
    · cases h
    · rename_i hne
      refine ⟨h, fun rest hr => hne ?_⟩
      obtain ⟨rfl, rfl⟩ := Prod.mk.inj (Option.some.inj hr)
      rw [(strchr_eq_some.1 hc).1, take_left]
      exact ⟨rfl, rfl⟩

theorem scanLine_maxUid (u line : Bytes) (s : Scan) :
    (scanLine u s line).maxUid = s.maxUid ∧ (∀ v, LineUid line v → v < uidMin ∨ v ≤ s.maxUid) ∨
      s.maxUid < (scanLine u s line).maxUid ∧ ∀ v, LineUid line v ↔ v = (scanLine u s line).maxUid := by
  cases hc : strchr colon (cstr line) with
  | none =>
    refine .inl ⟨by simp [scanLine, hc], fun v hv => ?_⟩
    obtain ⟨name, p, pw, q, hp, -⟩ := lineUid_iff.1 hv
    rw [hc] at hp; cases hp
  | some r =>
    obtain ⟨name, p⟩ := r
    cases hp : strchr colon p with
    | none =>
      refine .inl ⟨by simp only [scanLine, hc, hp]; split <;> rfl, fun v hv => ?_⟩
      obtain ⟨name', p', pw, q, hp', hq, -⟩ := lineUid_iff.1 hv
      rw [hc] at hp'; cases hp'
      rw [hp] at hq; cases hq
    | some t =>
      obtain ⟨pw, q⟩ := t
      have huid (v : Int) : LineUid line v ↔ v = atoi q := by
        rw [lineUid_iff]
        constructor
        · rintro ⟨name', p', pw', q', hp', hq', rfl⟩
          rw [hc] at hp'; cases hp'
          rw [hp] at hq'; cases hq'
          rfl
        · rintro rfl
          exact ⟨name, p, pw, q, hc, hp, rfl⟩
      have hmax : (scanLine u s line).maxUid = if atoi q ≥ uidMin ∧ atoi q > s.maxUid then atoi q else s.maxUid := by
        simp only [scanLine, hc, hp]
        split <;> split <;> rfl
      rw [hmax]
      split
      · rename_i h
        exact .inr ⟨h.2, huid⟩
      · refine .inl ⟨rfl, fun v hv => ?_⟩
        rw [(huid v).1 hv]
        omega

/-- What the scan knows after some lines. -/
structure Seen (u : Bytes) (ls : List Bytes) (s : Scan) : Prop where
  name : s.taken = false → ∀ l ∈ ls, ∀ rest, strchr colon (cstr l) ≠ some (u, rest)
  above : ∀ l ∈ ls, ∀ v, LineUid l v → v < uidMin ∨ v ≤ s.maxUid
  low : uidMin - 1 ≤ s.maxUid
  attained : s.maxUid = uidMin - 1 ∨ ∃ l ∈ ls, LineUid l s.maxUid

theorem Seen.line (h : Seen u ls s) (l : Bytes) : Seen u (ls ++ [l]) (scanLine u s l) := by
  have hname (ht : (scanLine u s l).taken = false) : ∀ l' ∈ ls ++
      [l], ∀ rest, strchr colon (cstr l') ≠ some (u, rest) := by
    obtain ⟨hs, hl⟩ := scanLine_taken ht
    intro l' hl'
    rcases mem_append.1 hl' with hl' | hl'
    · exact h.name hs l' hl'
    · obtain rfl := mem_singleton.1 hl'
      exact hl
  rcases scanLine_maxUid u l s with ⟨hmax, huid⟩ | ⟨hlt, huid⟩
  · refine ⟨hname, fun l' hl' v hv => ?_, by rw [hmax]; exact h.low, ?_⟩
    · rw [hmax]
      rcases mem_append.1 hl' with hl' | hl'
      · exact h.above l' hl' v hv
      · obtain rfl := mem_singleton.1 hl'
        exact huid v hv
    · rw [hmax]
      exact h.attained.imp_right fun ⟨l', hl', hv⟩ => ⟨l', mem_append_left _ hl', hv⟩
  · refine ⟨hname, fun l' hl' v hv => ?_, h.low.trans hlt.le, .inr ⟨l, by simp, (huid _).2 rfl⟩⟩
    rcases mem_append.1 hl' with hl' | hl'
    · have := h.above l' hl' v hv
      omega
    · obtain rfl := mem_singleton.1 hl'
      exact .inr ((huid v).1 hv).le

theorem Seen.lines (h : Seen u ls s) (more : List Bytes) : Seen u (ls ++ more) (more.foldl (scanLine u) s) := by
  induction more generalizing ls s with
  | nil => simpa using h
  | cons l more ih => simpa using ih (h.line l)

theorem seen_scanPasswd (u file : Bytes) : Seen u (fgetsLines 512 [] file) (scanPasswd u file) := by
  have hstart : Seen u [] ⟨false, uidMin - 1⟩ := ⟨by simp, by simp, le_rfl, .inl rfl⟩
  exact hstart.lines (fgetsLines 512 [] file)

theorem LineUid.range {line : Bytes} {v : Int} (h : LineUid line v) : -2 ^ 31 ≤ v ∧ v < 2 ^ 31 := by
  obtain ⟨-, -, -, -, -, -, -, -, -, rfl⟩ := h
  exact wrap32_range _

/-- The next user id is new, unless the highest is in use and the lowest too. -/
theorem Seen.fresh_iff (h : Seen u ls s) : (∀ l ∈ ls, ∀ v, LineUid l v → v ≠ wrap32 (s.maxUid + 1)) ↔
      ¬ ((∃ l ∈ ls, LineUid l (2 ^ 31 - 1)) ∧ ∃ l ∈ ls, LineUid l (-2 ^ 31)) := by
  have hlow := h.low
  by_cases hmax : s.maxUid + 1 < 2 ^ 31
  · rw [wrap32_of_mem (by unfold uidMin at hlow; omega) hmax]
    constructor
    · rintro - ⟨⟨l, hl, hv⟩, -⟩
      have := h.above l hl _ hv
      omega
    · intro _ l hl v hv he
      have := h.above l hl v hv
      omega
  · have hatt : ∃ l ∈ ls, LineUid l s.maxUid := h.attained.resolve_left (by unfold uidMin; omega)
    obtain ⟨l, hl, hv⟩ := hatt
    have hval : s.maxUid = 2 ^ 31 - 1 := by have := hv.range; omega
    have hnext : wrap32 (s.maxUid + 1) = -2 ^ 31 := by rw [hval]; decide
    rw [hval] at hv
    rw [hnext]
    constructor
    · rintro hfresh ⟨-, l', hl', hv'⟩
      exact hfresh l' hl' _ hv' rfl
    · rintro hnot l' hl' v hv' rfl
      exact hnot ⟨⟨l, hl, hv⟩, l', hl', hv'⟩

/-! ## Files of lines -/

/-- A file of complete lines. -/
def text (ls : List Bytes) : Bytes := ls.flatMap (· ++ [newline])

/-- A line that a buffer of `size` bytes can hold with its newline. -/
def Held (size : Nat) (l : Bytes) : Prop := newline ∉ l ∧ l.length + 2 ≤ size

theorem fgetsLines_text (h : ∀ l ∈ ls, Held size l) (rest : Bytes) :
    fgetsLines size [] (text ls ++ rest) = ls.map (· ++ [newline]) ++ fgetsLines size [] rest :=
  fgetsLines_flatMap size ls h rest

theorem authLookupPasswd_append {ps : List Bytes} (h : ∀ l ∈ ps, Held 256 l) (line name : Bytes) (m n : Nat) :
    authLookupPasswd (some (text ps ++ line)) name m n =
      (authLookupPasswd (some (text ps)) name m n).or ((fgetsLines 256 [] line).findSome? (passwdEntry name m n)) := by
  have hold := fgetsLines_text h []
  rw [append_nil] at hold
  simp only [authLookupPasswd, Option.bind_eq_bind, Option.bind_some, fgetsLines_text h, hold, findSome?_append]
  simp [fgetsLines]

theorem authLookupShadow_append {ss : List Bytes} (h : ∀ l ∈ ss, Held 1024 l) (line name : Bytes) (n : Nat) :
    authLookupShadow (some (text ss ++ line)) name n =
      (authLookupShadow (some (text ss)) name n).or ((fgetsLines 1024 [] line).findSome? (shadowHash name n)) := by
  have hold := fgetsLines_text h []
  rw [append_nil] at hold
  simp only [authLookupShadow, Option.bind_eq_bind, Option.bind_some, fgetsLines_text h, hold, findSome?_append]
  simp [fgetsLines]

/-! ## The line of the password -/

theorem shadowHash_line (hu : ValidUser u) (h : Hash) (name : Bytes) :
    (fgetsLines 1024 [] (shadowLine u h.text)).findSome? (shadowHash name 256) = if u = name then
      some h.text else none := by
  have htail : ascii ":19814:0:99999:7:::" = colon :: ascii "19814:0:99999:7:::" := by decide
  have hc : ascii ":" = [colon] := by decide
  have htl : (ascii "19814:0:99999:7:::").length = 18 := by decide
  have hlen := hu.length_le
  have hfits := h.fits
  have hbody : shadowLine u h.text =
      (u ++ colon :: (h.text ++ colon :: ascii "19814:0:99999:7:::")) ++ newline :: [] := by
    rw [shadowLine, lineBuf, take_of_length_le]
    · rw [htail, hc]; simp
    · rw [htail, hc]
      simp only [length_append, length_cons, length_nil, htl]
      omega
  have hclean (b : UInt8) (hu : b ∉ u) (hh : b ∉ h.text) (hb : b ≠ colon) (ht : b ∉ ascii "19814:0:99999:7:::") :
      b ∉ u ++ colon :: (h.text ++ colon :: ascii "19814:0:99999:7:::") := by
    simp only [mem_append, mem_cons, not_or]
    exact ⟨hu, hb, hh, hb, ht⟩
  have hnl := hclean newline hu.no_newline (fun hm => (h.clean _ hm).2.1 rfl) (by decide) (by decide)
  have hnul := hclean 0 hu.no_nul (fun hm => (h.clean _ hm).1 rfl) (by decide) (by decide)
  rw [hbody, fgetsLines_line hnl]
  · have hread : shadowHash name 256 (u ++ colon :: (h.text ++ colon :: ascii "19814:0:99999:7:::") ++ [newline]) =
        if u = name then some h.text else none := by
      have hz : (0 : UInt8) ∉ u ++ colon :: (h.text ++ colon :: ascii "19814:0:99999:7:::") ++ [newline] := by
        rw [mem_append, not_or]
        exact ⟨hnul, by decide⟩
      have hcolon : colon ∉ h.text := fun hm => (h.clean _ hm).2.2 rfl
      simp only [shadowHash, cstr_of_not_mem hz, takeWhile_ne_of_not_mem hnl, strchr_append hu.no_colon,
        Option.bind_eq_bind, Option.bind_some, takeWhile_ne_of_not_mem hcolon,
        take_of_length_le (show h.text.length ≤ 256 - 1 by omega), ne_eq, ite_not]
    rw [findSome?_cons, hread]
    split <;> simp_all [fgetsLines]
  · simp only [length_append, length_cons, htl]
    omega

/-! ## The line of the account -/

section

variable {u shell : Bytes} {i : Int} (hu : ValidUser u) (hl : -2 ^ 31 ≤ i) (hi : i < 2 ^ 31)

theorem passwdHead_not_mem {b : UInt8} (hu : b ∉ u) (hc : b ≠ colon) (hminus : b ≠ 45) (hdigit : isDigit b = false)
    (hx : b ∉ ascii "x") (hh : b ∉ ascii "/home/") : b ∉ passwdHead u i := by
  have hd : b ∉ decimalInt i := decimalInt_not_mem hminus hdigit
  have h := passwdHead_append u i []
  rw [append_nil] at h
  rw [h]
  simp only [mem_append, mem_cons, not_mem_nil, not_or, or_false]
  exact ⟨hu, hc, hx, hc, hd, hc, hd, hc, hu, hc, ⟨hh, hu⟩, hc⟩

include hu in
theorem newline_not_mem_passwdHead : newline ∉ passwdHead u i :=
  passwdHead_not_mem hu.no_newline (by decide) (by decide) (by decide) (by decide) (by decide)

include hu in
theorem nul_not_mem_passwdHead : (0 : UInt8) ∉ passwdHead u i :=
  passwdHead_not_mem hu.no_nul (by decide) (by decide) (by decide) (by decide) (by decide)

include hu hl hi in
/-- Whatever the shell, the reader finds the name, and as its shell a piece of what was written. -/
theorem passwdLine_read (hshell : (0 : UInt8) ∉ shell) : ∃ r, r <+: shell ++ [newline] ∧
    (passwdHead u i ++ r).length ≤ 255 ∧
    (fgetsLines 256 [] (passwdLine u i shell)).findSome? (passwdEntry u 256 256) =
      some ⟨i, i, ascii "/home/" ++ u, shellOf r⟩ := by
  have hlen := length_passwdHead_le hu hl hi
  have hline : passwdLine u i shell = passwdHead u i ++ (shell ++ [newline]).take (599 - (passwdHead u i).length) := by
    rw [passwdLine, lineBuf, append_assoc, take_append, take_of_length_le (by omega)]
  have hne : (shell ++ [newline]).take (599 - (passwdHead u i).length) ≠ [] := by
    rw [Ne, take_eq_nil_iff, not_or]
    exact ⟨by omega, by simp⟩
  obtain ⟨r, more, hfirst, hr, hfit⟩ := fgetsLines_first hne (show (passwdHead u i).length + 2 ≤ 256 by omega)
  have hpre : r <+: shell ++ [newline] := hr.trans ( take_prefix _ _)
  have hnul : (0 : UInt8) ∉ passwdHead u i ++ r := by
    rw [mem_append, not_or]
    refine ⟨nul_not_mem_passwdHead hu, fun h => ?_⟩
    rcases mem_append.1 (hpre.subset h) with h | h
    · exact hshell h
    · exact absurd (mem_singleton.1 h) (by decide)
  refine ⟨r, hpre, by omega, ?_⟩
  rw [hline, fgetsLines_skip (newline_not_mem_passwdHead hu) (by simp only [length_nil]; omega), nil_append,
    hfirst, findSome?_cons, passwdEntry_head hu hl hi hnul (by omega)]

/-- A piece of the line gives the shell back only if the shell has neither colon nor newline. -/
theorem shell_of_shellOf {r : Bytes} (hr : r <+: shell ++ [newline]) (h : shellOf r = shell) :
    newline ∉ shell ∧ colon ∉ shell ∧ shell.length ≤ r.length := by
  have hlen : shell.length ≤ r.length := h ▸ (shellOf_initial r).length_le
  rw [shellOf] at h
  split at h
  · rename_i hc
    have hmem : colon ∈ shell :=
      (mem_append.1 (hr.subset hc)).resolve_right fun hn => absurd (mem_singleton.1 hn) (by decide)
    rw [← h] at hmem
    simpa using mem_takeWhile_imp hmem
  · rename_i hc
    refine ⟨fun hn => ?_, fun hm => hc ?_, hlen⟩
    · rw [← h] at hn
      simpa using mem_takeWhile_imp hn
    · rw [← h] at hm
      exact ( takeWhile_prefix _).subset hm

theorem shellOf_shell (hn : newline ∉ shell) (hc : colon ∉ shell) : shellOf shell = shell ∧
    shellOf (shell ++ [newline]) = shell := by
  have hc' : colon ∉ shell ++ [newline] := by
    rw [mem_append, not_or]
    exact ⟨hc, by decide⟩
  rw [shellOf, if_neg hc, shellOf, if_neg hc', takeWhile_ne_self hn, takeWhile_ne_of_not_mem hn]
  exact ⟨rfl, rfl⟩

include hu hl hi in
theorem passwdEntry_new {name r : Bytes} (hr : (0 : UInt8) ∉ passwdHead u i ++ r)
    (hlen : (passwdHead u i ++ r).length ≤ 255) :
    passwdEntry name 256 256 (passwdHead u i ++ r) =
      if u = name then some ⟨i, i, ascii "/home/" ++ u, shellOf r⟩ else none := by
  by_cases hname : u = name
  · rw [if_pos hname, ← hname, passwdEntry_head hu hl hi hr hlen]
  · obtain ⟨rest, hrest⟩ := strchr_passwdHead hu i hr
    rw [if_neg hname, passwdEntry_eq_none hrest hname]

include hu hl hi in
/-- A line that fits is read as it was written, and for no other name. -/
theorem passwdLine_fits (hnul : (0 : UInt8) ∉ shell) (hn : newline ∉ shell) (hc : colon ∉ shell)
    (hfit : (passwdHead u i ++ shell).length ≤ 255) (name : Bytes) :
    (fgetsLines 256 [] (passwdLine u i shell)).findSome? (passwdEntry name 256 256) =
      if u = name then some ⟨i, i, ascii "/home/" ++ u, shell⟩ else none := by
  obtain ⟨hshell, hshell'⟩ := shellOf_shell hn hc
  have hline : passwdLine u i shell = passwdHead u i ++ shell ++ [newline] := by
    rw [passwdLine, lineBuf, take_of_length_le]
    rw [length_append, length_singleton]
    omega
  have hnl : newline ∉ passwdHead u i ++ shell := by
    rw [mem_append, not_or]
    exact ⟨newline_not_mem_passwdHead hu, hn⟩
  have hz : (0 : UInt8) ∉ passwdHead u i ++ shell := by
    rw [mem_append, not_or]
    exact ⟨nul_not_mem_passwdHead hu, hnul⟩
  have hz' : (0 : UInt8) ∉ passwdHead u i ++ (shell ++ [newline]) := by
    rw [← append_assoc, mem_append, not_or]
    exact ⟨hz, by decide⟩
  have hbare : passwdEntry name 256 256 [newline] = none := passwdEntry_of_strchr_none (by decide)
  have hne : passwdHead u i ++ shell ≠ [] := by rw [passwdHead_append]; simp
  rw [hline]
  rcases fgetsLines_body hnl (show (passwdHead u i ++ shell).length + 1 ≤ 256 by omega) hne with ⟨hlen, h⟩ | h
  · have hlen' : (passwdHead u i ++ (shell ++ [newline])).length ≤ 255 := by
      rw [← append_assoc, length_append, length_singleton]
      omega
    rw [h, append_assoc, findSome?_cons, passwdEntry_new hu hl hi hz' hlen', hshell']
    split <;> simp_all
  · rw [h, findSome?_cons, findSome?_cons, hbare, passwdEntry_new hu hl hi hz hfit, hshell]
    split <;> simp_all

end

/-! ## A run that made an account -/

/-- What is known of the account before its lines are written. -/
structure Prepared (files : Files) (c : Created) : Prop where
  user : ValidUser c.username
  shell : (0 : UInt8) ∉ c.shell
  scan : ∃ file, files.passwd = some file ∧ (scanPasswd c.username file).taken = false ∧
    c.uid = wrap32 ((scanPasswd c.username file).maxUid + 1)

theorem prepared_of_prepare {args : List Arg} {g : Given} {files : Files} {c : Created}
    (h : prepare args g files = .ok c) : Prepared files c := by
  unfold prepare at h
  cases ho : parseArgs ⟨true, defaultShell, none⟩ args with
  | error e => rw [ho] at h; cases h
  | ok o =>
    rw [ho] at h
    dsimp only [bind, Except.bind] at h
    cases hn : o.username with
    | none => rw [hn] at h; cases h
    | some user =>
      rw [hn] at h
      dsimp only at h
      split at h
      · cases h
      rename_i hvalid
      split at h
      · cases h
      cases hf : files.passwd with
      | none => rw [hf] at h; cases h
      | some file =>
        rw [hf] at h
        dsimp only at h
        split at h
        · cases h
        rename_i htaken
        split at h
        · cases h
        split at h
        · cases h
        cases hh : g.hashPassword (cstr (readPassword 128 [] g.keys).1) with
        | none => rw [hh] at h; cases h
        | some hash =>
          rw [hh] at h
          cases h
          exact ⟨.of_installUsernameValid (by simpa using hvalid), o.shell.no_nul, file, hf, by simpa using htaken, rfl⟩

theorem appendLine_all {write : Option Nat} {file : Option Bytes} {line : Bytes}
    (h : (appendLine write file line).2 = true) : (appendLine write file line).1 = some (file.getD [] ++ line) := by
  cases write with
  | none => cases h
  | some k =>
    have hk : line.length ≤ k := by simpa [appendLine] using h
    simp only [appendLine, take_of_length_le hk]

/-- All three lines were written. -/
theorem record_ok {c c' : Created} {g : Given} {files after : Files} (h : record c g files = (.ok c', after)) :
    c' = c ∧ after.passwd = some (files.passwd.getD [] ++ passwdLine c.username c.uid c.shell) ∧
      after.shadow = some (files.shadow.getD [] ++ shadowLine c.username c.hash.text) := by
  unfold record at h
  dsimp only at h
  split at h
  · cases h
  rename_i hp
  split at h
  · cases h
  rename_i hs
  split at h
  · cases h
  cases h
  exact ⟨rfl, appendLine_all (by simpa using hp), appendLine_all (by simpa using hs)⟩

/-! ## Writer and readers -/

/-- The readers find the new account as it was made, with a user id of its own, and every other
account as before. The buffers are those of `login`. -/
structure Agrees (ps : List Bytes) (before after : Files) (c : Created) : Prop where
  passwd : authLookupPasswd after.passwd c.username 256 256 =
    some ⟨c.uid, c.uid, ascii "/home/" ++ c.username, c.shell⟩
  shadow : authLookupShadow after.shadow c.username 256 = some c.hash.text
  fresh : ∀ l ∈ ps, ∀ v, LineUid (l ++ [newline]) v → v ≠ c.uid
  others : ∀ name ≠ c.username,
    authLookupPasswd after.passwd name 256 256 = authLookupPasswd before.passwd name 256 256 ∧
    authLookupShadow after.shadow name 256 = authLookupShadow before.shadow name 256

/-- The account to make: its shell stands in one field of a line that the reader can hold, `/etc/shadow`
has no other hash for the name, and the user ids do not start again with one that is in use. -/
structure Suits (ps ss : List Bytes) (c : Created) : Prop where
  no_newline : newline ∉ c.shell
  no_colon : colon ∉ c.shell
  fits : (passwdHead c.username c.uid ++ c.shell).length ≤ 255
  shadow : ∀ h, authLookupShadow (some (text ss)) c.username 256 = some h → h = c.hash.text
  uids : ¬ ((∃ l ∈ ps, LineUid (l ++ [newline]) (2 ^ 31 - 1)) ∧ ∃ l ∈ ps, LineUid (l ++ [newline]) (-2 ^ 31))

/-- A name that is not taken is not found. -/
theorem authLookupPasswd_of_seen {ps : List Bytes} (hp : ∀ l ∈ ps, Held 256 l)
    (hs : Seen u (ps.map (· ++ [newline])) s) (ht : s.taken = false) (m n : Nat) :
    authLookupPasswd (some (text ps)) u m n = none := by
  have hlines := fgetsLines_text hp []
  rw [append_nil] at hlines
  simp only [authLookupPasswd, Option.bind_eq_bind, Option.bind_some, hlines, findSome?_append]
  rw [show fgetsLines 256 [] [] = [] from rfl, findSome?_nil, Option.or_none, findSome?_eq_none_iff]
  intro l hl
  cases hc : strchr colon (cstr l) with
  | none => exact passwdEntry_of_strchr_none hc
  | some r => exact passwdEntry_eq_none hc fun he => hs.name ht l hl r.2 (by rw [hc, ← he])

/-- For files of complete lines that the readers can hold, writer and readers agree exactly if
the account that is prepared before anything is written suits. -/
theorem accounts_agree_iff {ps ss : List Bytes} (hp : ∀ l ∈ ps, Held 256 l) (hs : ∀ l ∈ ss, Held 1024 l)
    {args : List Arg} {g : Given} {group : Option Bytes} {after : Files} {c : Created}
    (hrun : useradd args g ⟨some (text ps), some (text ss), group⟩ = (.ok c, after)) :
    Agrees ps ⟨some (text ps), some (text ss), group⟩ after c ↔
      ∀ d, prepare args g ⟨some (text ps), some (text ss), group⟩ = .ok d → Suits ps ss d := by
  unfold useradd at hrun
  cases hprep : prepare args g ⟨some (text ps), some (text ss), group⟩ with
  | error e => rw [hprep] at hrun; cases hrun
  | ok c' =>
    rw [hprep] at hrun
    obtain ⟨rfl, hpasswd, hshadow⟩ := record_ok hrun
    obtain ⟨huser, hshell, file, hfile, htaken, huid⟩ := prepared_of_prepare hprep
    obtain rfl : text ps = file := Option.some.inj hfile
    have hseen := seen_scanPasswd c.username (text ps)
    have hlines := fgetsLines_text (fun l hl => ⟨(hp l hl).1, (hp l hl).2.trans (by decide : 256 ≤ 512)⟩) []
    rw [append_nil, show fgetsLines 512 [] [] = [] from rfl, append_nil] at hlines
    rw [hlines] at hseen
    have hrange := wrap32_range ((scanPasswd c.username (text ps)).maxUid + 1)
    have hfresh := hseen.fresh_iff
    rw [← huid] at hrange hfresh
    simp only [mem_map, forall_exists_index, and_imp, forall_apply_eq_imp_iff₂, exists_exists_and_eq_and] at hfresh
    have hnone := authLookupPasswd_of_seen hp hseen htaken 256 256
    have hP (name : Bytes) := authLookupPasswd_append hp (passwdLine c.username c.uid c.shell) name 256 256
    have hS (name : Bytes) := authLookupShadow_append hs (shadowLine c.username c.hash.text) name 256
    simp only [shadowHash_line huser] at hS
    rw [Option.getD_some] at hpasswd hshadow
    have hsuits : (∀ d, (Except.ok c : Except Stop Created) = .ok d → Suits ps ss d) ↔ Suits ps ss c :=
      ⟨fun h => h c rfl, fun h d hd => Except.ok.inj hd ▸ h⟩
    rw [hsuits]
    constructor
    · intro h
      obtain ⟨r, hr, hlen, hread⟩ := passwdLine_read huser hrange.1 hrange.2 hshell
      have hfound := h.passwd
      rw [hpasswd, hP, hnone, hread] at hfound
      obtain ⟨hn, hc, hle⟩ := shell_of_shellOf hr (congrArg Entry.shell (Option.some.inj hfound))
      refine ⟨hn, hc, ?_, fun x hx => ?_, hfresh.1 h.fresh⟩
      · rw [length_append] at hlen ⊢
        omega
      · have hhash := h.shadow
        rw [hshadow, hS, hx] at hhash
        exact Option.some.inj hhash
    · intro h
      have hfits := passwdLine_fits huser hrange.1 hrange.2 hshell h.no_newline h.no_colon h.fits
      refine ⟨?_, ?_, hfresh.2 h.uids, fun name hname => ⟨?_, ?_⟩⟩
      · rw [hpasswd, hP, hnone, Option.none_or, hfits, if_pos rfl]
      · rw [hshadow, hS, if_pos rfl]
        cases hold : authLookupShadow (some (text ss)) c.username 256 with
        | none => rfl
        | some x => rw [h.shadow x hold]; rfl
      · rw [hpasswd, hP, hfits, if_neg (Ne.symm hname), Option.or_none]
      · rw [hshadow, hS, if_neg (Ne.symm hname), Option.or_none]

/-! ## Samples -/

/-- A session that may do all, with the same password typed twice. -/
def sampleGiven : Given where
  elevated := true
  keys := ascii "sesame\nsesame\n"
  hashPassword := fun _ => some ⟨ascii "$6$salt$hash", by decide +kernel, by decide +kernel⟩
  passwdWrite := some 600
  shadowWrite := some 600
  groupWrite := some 600

def samplePasswd : List Bytes := [ascii "lee:x:0:0:lee:/home/lee:/bin/stsh", ascii "kim:x:1000:1000::/:/bin/stsh"]

def sampleShadow : List Bytes := [ascii "lee:$6$a$b:19814:0:99999:7:::"]

def sampleArgs (shell : Arg) : List Arg :=
  [⟨ascii "-s", by decide⟩, shell, ⟨ascii "ada", by decide⟩]

/-- The account that the sample makes. -/
def sampleCreated (shell : Arg) : Created :=
  ⟨ascii "ada", 1001, shell.text, ⟨ascii "$6$salt$hash", by decide +kernel, by decide +kernel⟩, true⟩

/-- The files after the sample. -/
def sampleAfter (ps ss : List Bytes) (shell : Arg) : Files where
  passwd := some (text ps ++ passwdLine (ascii "ada") 1001 shell.text)
  shadow := some (text ss ++ shadowLine (ascii "ada") (ascii "$6$salt$hash"))
  group := some (groupLine (ascii "ada") 1001)

theorem accounts_agree_sample :
    useradd (sampleArgs defaultShell) sampleGiven ⟨some (text samplePasswd), some (text sampleShadow), none⟩ =
      (.ok (sampleCreated defaultShell), sampleAfter samplePasswd sampleShadow defaultShell) ∧
    Agrees samplePasswd ⟨some (text samplePasswd), some (text sampleShadow), none⟩
      (sampleAfter samplePasswd sampleShadow defaultShell) (sampleCreated defaultShell) := by
  have hrun : useradd (sampleArgs defaultShell) sampleGiven ⟨some (text samplePasswd), some (text sampleShadow), none⟩ =
      (.ok (sampleCreated defaultShell), sampleAfter samplePasswd sampleShadow defaultShell) := by decide
  refine ⟨hrun, (accounts_agree_iff (by unfold Held; decide)
    (by unfold Held; decide) hrun).2 fun c hc => ?_⟩
  have hprep : prepare (sampleArgs defaultShell) sampleGiven
      ⟨some (text samplePasswd), some (text sampleShadow), none⟩ =
      .ok (sampleCreated defaultShell) := by decide
  obtain rfl : sampleCreated defaultShell = c := Except.ok.inj (hprep.symm.trans hc)
  refine ⟨by decide, by decide, by decide, fun h hh => ?_, by decide⟩
  cases hh

/-- A shell that brings a line with it. -/
def twoLines : Arg := ⟨ascii "/bin/sh\neve:x:0:0::/:/bin/sh", by decide⟩

/-- A password that was left in `/etc/shadow`. -/
def leftover : List Bytes := [ascii "ada:$6$old$old:19814:0:99999:7:::"]

/-- With a newline in its shell a second account appears, with the user id 0; and an old line of
`/etc/shadow` stays in force. -/
theorem accounts_disagree :
    (useradd (sampleArgs twoLines) sampleGiven ⟨some (text samplePasswd), some (text sampleShadow), none⟩ =
        (.ok (sampleCreated twoLines), sampleAfter samplePasswd sampleShadow twoLines) ∧
      ¬ Agrees samplePasswd ⟨some (text samplePasswd), some (text sampleShadow), none⟩
        (sampleAfter samplePasswd sampleShadow twoLines) (sampleCreated twoLines)) ∧
    (useradd (sampleArgs defaultShell) sampleGiven ⟨some (text samplePasswd), some (text leftover), none⟩ =
        (.ok (sampleCreated defaultShell), sampleAfter samplePasswd leftover defaultShell) ∧
      ¬ Agrees samplePasswd ⟨some (text samplePasswd), some (text leftover), none⟩
        (sampleAfter samplePasswd leftover defaultShell) (sampleCreated defaultShell)) := by
  refine ⟨⟨by decide, fun h => ?_⟩, by decide, fun h => ?_⟩
  · exact absurd (h.others (ascii "eve") (by decide)).1 (by decide)
  · exact absurd h.shadow (by decide)

end Lorica.Proof.Accounts

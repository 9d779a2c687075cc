import Lorica.Proof.Herald.Resolve
import Lorica.Proof.Herald.Version

/-!
# herald: looking a package up

A list of packages is a text whose stanzas stand between blank lines. `repo_find`
takes the newest of the stanzas it reads (`repoFind_newest`), but it stops to read a
list at the first stanza in which it finds no name (`packages_eq`).

* `written`: the stanzas as the text has them;
* `FindsNewest`: what a lookup should give;
* `repoFind_newest_iff`: when it does.
-/

namespace Lorica.Proof.Herald

open Lorica.Impl.Herald Posix List

/-! ## Stanzas -/

/-- The groups of lines between blank ones. -/
def groups (blank : Bytes → Bool) (ls : List Bytes) : List (List Bytes) := (ls.splitOnP blank).filter (· ≠ [])

section

variable {blank : Bytes → Bool} {l : Bytes} {ls : List Bytes}

theorem groups_nil : groups blank [] = [] := by simp [groups]

theorem groups_blank (h : blank l = true) : groups blank (l :: ls) = groups blank ls := by
  simp [groups, splitOnP_cons_eq_if_modifyHead, h]

/-- A group, the blank line behind it and the rest. -/
theorem groups_append {g rest : List Bytes} (hne : g ≠ []) (hg : ∀ l ∈ g, blank l = false) (hl : blank l = true) :
    groups blank (g ++ l :: rest) = g :: groups blank rest := by
  rw [groups, splitOnP_append_cons_of_forall_mem hg l hl, filter_cons_of_pos (by simpa using hne)]
  rfl

/-- A group that the text ends with. -/
theorem groups_single {g : List Bytes} (hne : g ≠ []) (hg : ∀ l ∈ g, blank l = false) : groups blank g = [g] := by
  rw [groups, splitOnP_eq_singleton hg, filter_cons_of_pos (by simpa using hne)]
  rfl

end

/-- A line that `parse_stanza` takes for a blank one. -/
def readBlank (l : Bytes) : Bool := decide (lineBuf 400 l = [])

/-- The stanza that `parse_stanza` makes of a group of lines. -/
def readGroup (g : List Bytes) : Stanza := g.foldl (fun s l => stanzaLine s (lineBuf 400 l)) .empty

/-- What `parse_stanza` returns for a group of lines. -/
def groupResult (s : Stanza) : Option Stanza := if s.name ≠ [] then some s else none

/-- Within a stanza, up to the next blank line. -/
theorem parseStanza_got (s : Stanza) (ls : List Bytes) :
    ∃ g rest, (∀ l ∈ g, readBlank l = false) ∧ (ls = g ∧ rest = [] ∨ ∃ l, readBlank l = true ∧ ls = g ++ l :: rest) ∧
      parseStanza s true ls = (groupResult (g.foldl (fun s l => stanzaLine s (lineBuf 400 l)) s), rest) := by
  induction ls generalizing s with
  | nil =>
    refine ⟨[], [], forall_mem_nil _, .inl ⟨rfl, rfl⟩, ?_⟩
    by_cases hn : s.name = [] <;> simp [parseStanza, groupResult, hn]
  | cons l ls ih =>
    by_cases hl : lineBuf 400 l = []
    · refine ⟨[], ls, forall_mem_nil _, .inr ⟨l, decide_eq_true hl, rfl⟩, ?_⟩
      by_cases hn : s.name = [] <;> simp [parseStanza, hl, groupResult, hn]
    · obtain ⟨g, rest, hg, hls, hp⟩ := ih (stanzaLine s (lineBuf 400 l))
      refine ⟨l :: g, rest, forall_mem_cons.mpr ⟨decide_eq_false hl, hg⟩, ?_, ?_⟩
      · rcases hls with ⟨rfl, rfl⟩ | ⟨l', hl', rfl⟩
        · exact .inl ⟨rfl, rfl⟩
        · exact .inr ⟨l', hl', rfl⟩
      · rw [parseStanza, if_neg hl, hp, foldl_cons]

/-- A call of `parse_stanza` reads the next group. -/
theorem parseStanza_group (ls : List Bytes) : groups readBlank ls = [] ∧ parseStanza .empty false ls = (none, []) ∨
      ∃ g rest, groups readBlank ls = g :: groups readBlank rest ∧ rest.length < ls.length ∧
        parseStanza .empty false ls = (groupResult (readGroup g), rest) := by
  induction ls with
  | nil => exact .inl ⟨groups_nil, by simp [parseStanza]⟩
  | cons l ls ih =>
    by_cases hl : lineBuf 400 l = []
    · rw [groups_blank (decide_eq_true hl)]
      have hp : parseStanza .empty false (l :: ls) = parseStanza .empty false ls := by simp [parseStanza, hl]
      rw [hp]
      rcases ih with h | ⟨g, rest, hgr, hlen, hpr⟩
      · exact .inl h
      · exact .inr ⟨g, rest, hgr, by rw [length_cons]; omega, hpr⟩
    · obtain ⟨g, rest, hg, hls, hp⟩ := parseStanza_got (stanzaLine .empty (lineBuf 400 l)) ls
      have hg' : ∀ x ∈ l :: g, readBlank x = false := forall_mem_cons.mpr ⟨decide_eq_false hl, hg⟩
      refine .inr ⟨l :: g, rest, ?_, ?_, ?_⟩
      · rcases hls with ⟨rfl, rfl⟩ | ⟨l', hl', rfl⟩
        · rw [groups_single (cons_ne_nil _ _) hg', groups_nil]
        · exact groups_append (cons_ne_nil _ _) hg' hl'
      · rcases hls with ⟨rfl, rfl⟩ | ⟨l', hl', rfl⟩
        · simp
        · simp only [length_cons, length_append]
          omega
      · rw [parseStanza, if_neg hl, hp]
        rfl

theorem stanzas_eq {fuel : Nat} {ls : List Bytes} (h : ls.length ≤ fuel) :
    stanzas fuel ls = ((groups readBlank ls).map readGroup).takeWhile (·.name ≠ []) := by
  induction fuel generalizing ls with
  | zero =>
    obtain rfl : ls = [] := length_eq_zero_iff.mp (by omega)
    simp [stanzas, groups_nil]
  | succ fuel ih =>
    rw [stanzas]
    rcases parseStanza_group ls with ⟨hgr, hp⟩ | ⟨g, rest, hgr, hlen, hp⟩
    · simp [hgr, hp]
    · rw [hp, hgr, map_cons, groupResult]
      by_cases hn : (readGroup g).name = []
      · simp [hn]
      · simp [hn, ih (show rest.length ≤ fuel by omega)]

/-- What is read of a list: its stanzas up to the first one without a name. -/
theorem packages_eq (buf : Bytes) :
    packages buf = ((groups readBlank (bufLines [] buf)).map readGroup).takeWhile (·.name ≠ []) := stanzas_eq le_rfl

/-! ## The newest -/

/-- The place of a version in the order of versions. -/
def versionKey (v : Bytes) : Lex (Nat → Nat) := toLex (component v)

theorem not_heraldVersionGt {a b : Bytes} : heraldVersionGt a b = false ↔ versionKey a ≤ versionKey b := by
  rw [← Bool.not_eq_true, heraldVersionGt_iff, lexGt_iff_toLex]
  exact not_lt

/-- A stanza with this name that is for this machine. -/
structure Offers (name : Bytes) (st : Stanza) : Prop where
  name : st.name = name
  arch : st.arch = [] ∨ st.arch = heraldArch

instance (name : Bytes) (st : Stanza) : Decidable (Offers name st) :=
  decidable_of_iff (st.name = name ∧ (st.arch = [] ∨ st.arch = heraldArch)) ⟨fun h => ⟨h.1, h.2⟩, fun h => ⟨h.1, h.2⟩⟩

/-- `out` is the newest stanza of `sts` that offers `name`. -/
structure Newest (name : Bytes) (sts : List Stanza) (out : Option Stanza) : Prop where
  absent : out = none → ∀ st ∈ sts, ¬ Offers name st
  found : ∀ best, out = some best → ∃ st ∈ sts, ∃ url, Offers name st ∧ best = { st with baseUrl := url }
  newest : ∀ best, out = some best → ∀ st ∈ sts, Offers name st → versionKey st.version ≤ versionKey best.version

variable {name url : Bytes} {sts : List Stanza} {out : Option Stanza} {st : Stanza}

theorem candidate_not_offers (h : ¬ Offers name st) : candidate name url out st = out := by
  unfold candidate
  split
  · rfl
  split
  · rfl
  · rename_i hn ha
    refine absurd ⟨not_not.mp hn, ?_⟩ h
    by_contra hc
    exact ha (not_or.mp hc)

theorem candidate_none (h : Offers name st) :
    candidate name url none st = some { st with baseUrl := url.take 255 } := by
  unfold candidate
  rw [if_neg (not_not.mpr h.name), if_neg fun ha => h.arch.elim ha.1 ha.2]

theorem candidate_some (h : Offers name st) (best : Stanza) : candidate name url (some best) st =
      if heraldVersionGt st.version best.version = true then
        some { st with baseUrl := url.take 255 } else some best := by
  unfold candidate
  rw [if_neg (not_not.mpr h.name), if_neg fun ha => h.arch.elim ha.1 ha.2]

/-- One more stanza. -/
theorem Newest.step (h : Newest name sts out) (st : Stanza) (url : Bytes) :
    Newest name (sts ++ [st]) (candidate name url out st) := by
  have hmem : ∀ {P : Stanza → Prop}, (∀ x ∈ sts, P x) → P st → ∀ x ∈ sts ++ [st], P x := by
    intro P hP hst x hx
    rcases mem_append.mp hx with hx | hx
    · exact hP x hx
    · exact mem_singleton.mp hx ▸ hst
  have hlift : ∀ best, out = some best →
      ∃ x ∈ sts ++ [st], ∃ url, Offers name x ∧ best = { x with baseUrl := url } := by
    intro best hb
    obtain ⟨x, hx, hoff⟩ := h.found best hb
    exact ⟨x, mem_append_left _ hx, hoff⟩
  have hself : Offers name st → ∀ best, some { st with baseUrl := url.take 255 } = some best →
      ∃ x ∈ sts ++ [st], ∃ url, Offers name x ∧ best = { x with baseUrl := url } := by
    intro hoff best hb
    exact ⟨st, by simp, url.take 255, hoff, (Option.some.inj hb).symm⟩
  by_cases hoff : Offers name st
  · cases out with
    | none =>
      rw [candidate_none hoff]
      refine ⟨fun hc => absurd hc (Option.some_ne_none _), hself hoff, fun best hb => ?_⟩
      obtain rfl := Option.some.inj hb
      exact hmem (fun x hx hx' => absurd hx' (h.absent rfl x hx)) fun _ => le_rfl
    | some best =>
      rw [candidate_some hoff]
      split
      · rename_i hgt
        refine ⟨fun hc => absurd hc (Option.some_ne_none _), hself hoff, fun best' hb => ?_⟩
        obtain rfl := Option.some.inj hb
        refine hmem (fun x hx hx' => (h.newest best rfl x hx hx').trans ?_) fun _ => le_rfl
        rw [heraldVersionGt_iff, lexGt_iff_toLex] at hgt
        exact hgt.le
      · rename_i hgt
        refine ⟨fun hc => absurd hc (Option.some_ne_none _), hlift, fun best' hb => ?_⟩
        obtain rfl := Option.some.inj hb
        exact hmem (h.newest best rfl) fun _ => not_heraldVersionGt.mp (Bool.not_eq_true _ ▸ hgt)
  · rw [candidate_not_offers hoff]
    exact ⟨fun hc => hmem (h.absent hc) hoff, hlift, fun best hb => hmem (h.newest best hb) fun hx => absurd hx hoff⟩

/-- The stanzas of one list. -/
theorem Newest.foldl (h : Newest name sts out) (sts' : List Stanza) (url : Bytes) :
    Newest name (sts ++ sts') (sts'.foldl (candidate name url) out) := by
  induction sts' generalizing sts out with
  | nil => simpa using h
  | cons st sts' ih => simpa using ih (h.step st url)

/-! ## The lists -/

variable {C : Crypto} {s : FileSys} {ls : List (Source × Bytes)}

def verifiedList (C : Crypto) (s : FileSys) (src : Source) : Option (Source × Bytes) :=
  (Sys.value (listsLoadVerified C src (srckey src)) s).map (src, ·)

/-- The lists on a root that a lookup uses, if there are sources. -/
def verifiedLists (C : Crypto) (s : FileSys) : Option (List (Source × Bytes)) :=
  (Sys.value (sourcesLoad 16) s).map (·.filterMap (verifiedList C s))

/-- The candidate after one more list. -/
def findIn (name : Bytes) (out : Option Stanza) (l : Source × Bytes) : Option Stanza :=
  (packages l.2).foldl (candidate name l.1.url) out

theorem repoFindIn_value (out : Option Stanza) (srcs : List Source) :
    Sys.value (repoFindIn C name out srcs) s = (srcs.filterMap (verifiedList C s)).foldl (findIn name) out := by
  induction srcs generalizing out with
  | nil => rfl
  | cons src srcs ih =>
    rw [repoFindIn, Sys.value_bind (uses_listsLoadVerified _ _), filterMap_cons, verifiedList]
    cases Sys.value (listsLoadVerified C src (srckey src)) s with
    | none => exact ih out
    | some buf => exact ih _

theorem uses_sourcesLoad (max : Nat) : Uses Reads (sourcesLoad max) := by
  refine .bind (uses_readFile _) fun r => ?_
  split <;> exact .pure _

theorem repoFind_value (h : verifiedLists C s = some ls) :
    Sys.value (repoFind C name) s = (ls.foldl (findIn name) none).elim .absent .found := by
  obtain ⟨srcs, hsrcs, rfl⟩ := Option.map_eq_some_iff.mp h
  rw [repoFind, Sys.value_bind (uses_sourcesLoad 16), hsrcs]
  change Sys.value (repoFindIn C name none srcs >>= _) s = _
  rw [Sys.value_bind (uses_repoFindIn _ _), repoFindIn_value]
  cases (srcs.filterMap (verifiedList C s)).foldl (findIn name) none <;> rfl

theorem newest_findIn (h : Newest name sts out) (ls : List (Source × Bytes)) :
    Newest name (sts ++ ls.flatMap (packages ·.2)) (ls.foldl (findIn name) out) := by
  induction ls generalizing sts out with
  | nil => simpa using h
  | cons l ls ih => simpa [findIn] using ih (h.foldl (packages l.2) l.1.url)

/-- A lookup gives the newest stanza that is read. -/
theorem repoFind_newest (name : Bytes) (ls : List (Source × Bytes)) :
    Newest name (ls.flatMap (packages ·.2)) (ls.foldl (findIn name) none) := by
  have hempty : Newest name [] none :=
    ⟨fun _ => forall_mem_nil _, fun _ h => (Option.some_ne_none _ h.symm).elim, fun _ _ => forall_mem_nil _⟩
  exact newest_findIn hempty ls

/-! ## The stanzas of the text -/

/-- A line without its carriage return. -/
def textOf (l : Bytes) : Bytes := if l.getLast? = some cr then l.dropLast else l

/-- The key and the value of a line. -/
def lineField (line : Bytes) : Option (Bytes × Bytes) :=
  if colon ∈ line then
    some (line.takeWhile (· ≠ colon), ((line.dropWhile (· ≠ colon)).drop 1).dropWhile (· = space))
  else none

/-- The value of a field in a group of lines, the last one that it has. -/
def fieldOf (key : Bytes) (g : List Bytes) : Option Bytes :=
  (g.filterMap fun l => lineField (textOf l)).reverse.lookup key

/-- What a stanza of the text says. -/
structure Written where
  name : Option Bytes
  version : Bytes
  arch : Bytes
deriving DecidableEq

def writtenGroup (g : List Bytes) : Written :=
  ⟨fieldOf (ascii "Package") g, (fieldOf (ascii "Version") g).getD [], (fieldOf (ascii "Architecture") g).getD []⟩

/-- The stanzas of a list, however long its lines and fields are. -/
def written (buf : Bytes) : List Written :=
  (groups (fun l => decide (textOf l = [])) (bufLines [] buf)).map writtenGroup

/-- A stanza of the text with this name, and the right architecture or none. -/
def Written.Offers (name : Bytes) (w : Written) : Prop := w.name = some name ∧ (w.arch = [] ∨ w.arch = heraldArch)

instance (name : Bytes) (w : Written) : Decidable (w.Offers name) := inferInstanceAs (Decidable (_ ∧ _))

/-- What a lookup should give. -/
structure FindsNewest (name : Bytes) (ls : List (Source × Bytes)) (r : Found Stanza) : Prop where
  found : (∃ st, r = .found st) ↔ ∃ l ∈ ls, ∃ w ∈ written l.2, w.Offers name
  offers : ∀ st, r = .found st → Offers name st
  newest : ∀ st, r = .found st → ∀ l ∈ ls, ∀ w ∈ written l.2, w.Offers name →
    heraldVersionGt w.version st.version = false

/-- The groups of lines before the first one in which no name is read. -/
def readable (buf : Bytes) : List (List Bytes) :=
  (groups readBlank (bufLines [] buf)).takeWhile fun g => (readGroup g).name ≠ []

theorem packages_eq_readable (buf : Bytes) : packages buf = (readable buf).map readGroup := by
  rw [packages_eq, takeWhile_map]
  rfl

/-- Nothing is missed: each stanza of the text that offers the name is matched by one
as new that stands before the first nameless stanza of its list, as it is read; and nothing
but a stanza of the text is read. -/
structure Reached (name : Bytes) (ls : List (Source × Bytes)) : Prop where
  matched : ∀ l ∈ ls, ∀ w ∈ written l.2, w.Offers name → ∃ l' ∈ ls, ∃ g ∈ readable l'.2,
    Herald.Offers name (readGroup g) ∧ heraldVersionGt w.version (readGroup g).version = false
  written : ∀ l ∈ ls, ∀ g ∈ readable l.2, Herald.Offers name (readGroup g) →
    ∃ l' ∈ ls, ∃ w ∈ written l'.2, w.Offers name

theorem mem_read {st : Stanza} :
    st ∈ ls.flatMap (packages ·.2) ↔ ∃ l ∈ ls, ∃ g ∈ readable l.2, readGroup g = st := by
  simp [packages_eq_readable]

/-- A root with one list. -/
def listRoot (buf : Bytes) : FileSys := .ofList
  [([ascii "etc", ascii "herald", ascii "sources.list"], .file (ascii "u s c\n")),
    ([ascii "var", ascii "lib", ascii "herald", ascii "lists", ascii "u_s_c.Release"],
      .file (ascii "SHA256:\n 00 1 c/binary-x86_64/Packages\n")),
    ([ascii "var", ascii "lib", ascii "herald", ascii "lists", ascii "u_s_c.Release.sig"], .file []),
    ([ascii "var", ascii "lib", ascii "herald", ascii "lists", ascii "u_s_c.Packages"], .file buf)]

def listSource : Source := ⟨ascii "u", ascii "s", ascii "c"⟩

/-- The newer of two stanzas is found, the nameless one behind them does not matter. -/
def twoStanzas : Bytes := ascii "Package: hello\nVersion: 1.9\n\nVersion: 1.10\nPackage: hello\n\nVersion: 3"

/-- A stanza without a name before the package. -/
def namelessFirst : Bytes := ascii "Version: 3\n\nPackage: hello\nVersion: 1.0\n"

/-- The lines and the fields that are looked at are read whole. -/
structure ListFits (buf : Bytes) : Prop where
  line : ∀ l ∈ bufLines [] buf, l.length ≤ 399 ∧ (0 : UInt8) ∉ l
  name : ∀ l ∈ bufLines [] buf, ∀ val, lineField (textOf l) = some (ascii "Package", val) → val.length ≤ 63
  version : ∀ l ∈ bufLines [] buf, ∀ val, lineField (textOf l) = some (ascii "Version", val) → val.length ≤ 47
  arch : ∀ l ∈ bufLines [] buf, ∀ val, lineField (textOf l) = some (ascii "Architecture", val) → val.length ≤ 15

theorem lineBuf_eq {l : Bytes} (hl : l.length ≤ 399) (h0 : (0 : UInt8) ∉ l) : lineBuf 400 l = textOf l := by
  have htake : l.take (400 - 1) = l := take_of_length_le hl
  rw [lineBuf, htake]
  apply cstr_of_not_mem
  split
  · exact fun h => h0 (dropLast_subset l h)
  · exact h0

theorem splitOnP_congr {p q : Bytes → Bool} {ls : List Bytes} (h : ∀ l ∈ ls, p l = q l) :
    ls.splitOnP p = ls.splitOnP q := by
  induction ls with
  | nil => simp
  | cons l ls ih =>
    rw [splitOnP_cons_eq_if_modifyHead, splitOnP_cons_eq_if_modifyHead, h l mem_cons_self,
      ih fun l' hl' => h l' (mem_cons_of_mem _ hl')]

theorem mem_splitOnP {p : Bytes → Bool} {ls g : List Bytes} (hg : g ∈ ls.splitOnP p) : ∀ l ∈ g, l ∈ ls := by
  induction ls generalizing g with
  | nil =>
    rw [splitOnP_nil, mem_singleton] at hg
    simp [hg]
  | cons l ls ih =>
    rw [splitOnP_cons_eq_if_modifyHead] at hg
    split at hg
    · rcases mem_cons.mp hg with rfl | hg
      · exact forall_mem_nil _
      · exact fun l' hl' => mem_cons_of_mem _ (ih hg l' hl')
    · obtain ⟨g', gs, hgs⟩ := exists_cons_of_ne_nil (splitOnP_ne_nil p ls)
      rw [hgs] at hg
      rcases mem_cons.mp hg with rfl | hg
      · refine forall_mem_cons.mpr ⟨mem_cons_self, fun l' hl' => ?_⟩
        exact mem_cons_of_mem _ (ih (hgs ▸ mem_cons_self) l' hl')
      · exact fun l' hl' => mem_cons_of_mem _ (ih (hgs ▸ mem_cons_of_mem _ hg) l' hl')

theorem fieldOf_append (key : Bytes) (g : List Bytes) (l : Bytes) : fieldOf key (g ++ [l]) =
      ((lineField (textOf l)).bind fun f => if f.1 = key then some f.2 else none).or (fieldOf key g) := by
  rw [fieldOf, filterMap_append]
  cases hf : lineField (textOf l) with
  | none => simp [hf, fieldOf]
  | some f =>
    obtain ⟨k, val⟩ := f
    by_cases hk : k = key
    · simp [hf, hk]
    · have hb : (key == k) = false := beq_eq_false_iff_ne.mpr (Ne.symm hk)
      simp [hf, hk, lookup_cons, hb, fieldOf]

theorem stanzaLine_eq (st : Stanza) (line : Bytes) :
    stanzaLine st line = (lineField line).elim st fun f => stanzaField st f.1 f.2 := by
  rw [stanzaLine, lineField]
  by_cases hc : colon ∈ line
  · rw [if_neg (not_not.mpr hc), if_pos hc]
    rfl
  · rw [if_pos hc, if_neg hc]
    rfl

theorem stanzaField_name (st : Stanza) (key val : Bytes) :
    (stanzaField st key val).name = if key = ascii "Package" then val.take 63 else st.name := by
  unfold stanzaField
  repeat' split
  all_goals rfl

theorem stanzaField_version (st : Stanza) (key val : Bytes) :
    (stanzaField st key val).version = if key = ascii "Version" then val.take 47 else st.version := by
  have hne : ascii "Version" ≠ ascii "Package" := by decide
  by_cases hk : key = ascii "Version"
  · rw [if_pos hk, hk, stanzaField, if_neg hne, if_pos rfl]
  · unfold stanzaField
    repeat' split
    all_goals rfl

theorem stanzaField_arch (st : Stanza) (key val : Bytes) :
    (stanzaField st key val).arch = if key = ascii "Architecture" then val.take 15 else st.arch := by
  have hne : ascii "Architecture" ≠ ascii "Package" := by decide
  have hne' : ascii "Architecture" ≠ ascii "Version" := by decide
  by_cases hk : key = ascii "Architecture"
  · rw [if_pos hk, hk, stanzaField, if_neg hne, if_neg hne', if_pos rfl]
  · unfold stanzaField
    repeat' split
    all_goals rfl

/-- A field that `parse_stanza` keeps in `n` bytes is read as it is written, where it fits. -/
theorem read_field {buf : Bytes} (hfit : ListFits buf) {sel : Stanza → Bytes} {key : Bytes} {n : Nat}
    (hempty : sel .empty = [])
    (hsel : ∀ st k val, sel (stanzaField st k val) = if k = key then val.take n else sel st)
    (hn : ∀ l ∈ bufLines [] buf, ∀ val, lineField (textOf l) = some (key, val) → val.length ≤ n)
    {g : List Bytes} (hg : ∀ l ∈ g, l ∈ bufLines [] buf) : sel (readGroup g) = (fieldOf key g).getD [] := by
  induction g using reverseRecOn with
  | nil => exact hempty
  | append_singleton g l ih =>
    have hl := hg l (by simp)
    have ih := ih fun l' hl' => hg l' (mem_append_left _ hl')
    have hstep : readGroup (g ++ [l]) = stanzaLine (readGroup g) (textOf l) := by
      rw [← lineBuf_eq (hfit.line l hl).1 (hfit.line l hl).2]
      simp [readGroup]
    rw [hstep, stanzaLine_eq, fieldOf_append]
    cases hf : lineField (textOf l) with
    | none => exact ih
    | some f =>
      obtain ⟨k, val⟩ := f
      show sel (stanzaField (readGroup g) k val) = _
      rw [hsel]
      by_cases hk : k = key
      · rw [take_of_length_le (hn l hl val (hk ▸ hf))]
        simp [hk]
      · rw [ih]
        simp [hk]

/-- A stanza of the text that has a name. -/
def Written.isNamed (w : Written) : Bool := decide (w.name.getD [] ≠ [])

/-- What is read of a list that fits is what is written before its first nameless stanza. -/
theorem readable_fits {buf : Bytes} (hfit : ListFits buf) :
    (readable buf).map writtenGroup = (written buf).takeWhile Written.isNamed ∧
      ∀ g ∈ readable buf, (readGroup g).name = (writtenGroup g).name.getD [] ∧
        (readGroup g).version = (writtenGroup g).version ∧ (readGroup g).arch = (writtenGroup g).arch := by
  have hblank : ∀ l ∈ bufLines [] buf, readBlank l = decide (textOf l = []) := by
    intro l hl
    rw [readBlank, lineBuf_eq (hfit.line l hl).1 (hfit.line l hl).2]
  have hgroups : groups readBlank (bufLines [] buf) =
      groups (fun l => decide (textOf l = [])) (bufLines [] buf) := by
    rw [groups, splitOnP_congr hblank]
    rfl
  have hread : ∀ g ∈ groups readBlank (bufLines [] buf), (readGroup g).name = (writtenGroup g).name.getD [] ∧
      (readGroup g).version = (writtenGroup g).version ∧ (readGroup g).arch = (writtenGroup g).arch := by
    intro g hg
    have hmem := mem_splitOnP (mem_filter.mp hg).1
    exact ⟨read_field hfit rfl stanzaField_name hfit.name hmem,
      read_field hfit rfl stanzaField_version hfit.version hmem,
      read_field hfit rfl stanzaField_arch hfit.arch hmem⟩
  refine ⟨?_, fun g hg => hread g ((takeWhile_subset _) hg)⟩
  rw [written, ← hgroups, takeWhile_map, readable]
  congr 1
  generalize groups readBlank (bufLines [] buf) = gs at hread
  induction gs with
  | nil => rfl
  | cons g gs ih =>
    have hsame : decide ((readGroup g).name ≠ []) = (Written.isNamed ∘ writtenGroup) g := by
      rw [(hread g mem_cons_self).1]
      rfl
    rw [takeWhile_cons, takeWhile_cons, ih fun g' hg' => hread g' (mem_cons_of_mem _ hg'), hsame]

/-- In lists that fit, what can be missed is what stands behind a nameless stanza. -/
theorem reached_iff_of_fits (hfit : ∀ l ∈ ls, ListFits l.2) :
    Reached name ls ↔ ∀ l ∈ ls, ∀ w ∈ written l.2, w.Offers name → ∃ l' ∈ ls,
      ∃ w' ∈ (written l'.2).takeWhile Written.isNamed, w'.Offers name ∧
        heraldVersionGt w.version w'.version = false := by
  have hoff : ∀ l ∈ ls, ∀ g ∈ readable l.2, Offers name (readGroup g) ↔ (writtenGroup g).Offers name := by
    intro l hl g hg
    obtain ⟨hn, -, ha⟩ := (readable_fits (hfit l hl)).2 g hg
    constructor
    · rintro ⟨h1, h2⟩
      rw [hn] at h1
      rw [ha] at h2
      refine ⟨?_, h2⟩
      -- what is read has a name
      have hne : (readGroup g).name ≠ [] := by simpa using mem_takeWhile_imp (p := fun g => (readGroup g).name ≠ []) hg
      rw [hn] at hne
      cases hw : (writtenGroup g).name with
      | none => rw [hw] at hne; exact absurd rfl hne
      | some n => rw [hw] at h1; exact congrArg some h1
    · rintro ⟨h1, h2⟩
      exact ⟨by rw [hn, h1]; rfl, ha ▸ h2⟩
  constructor
  · intro hr l hl w hw hw'
    obtain ⟨l', hl', g, hg, hg', hge⟩ := hr.matched l hl w hw hw'
    obtain ⟨hmap, hread⟩ := readable_fits (hfit l' hl')
    refine ⟨l', hl', writtenGroup g, hmap ▸ mem_map_of_mem hg, (hoff l' hl' g hg).mp hg', ?_⟩
    rwa [← (hread g hg).2.1]
  · intro h
    refine ⟨fun l hl w hw hw' => ?_, fun l hl g hg hg' => ?_⟩
    · obtain ⟨l', hl', w', hw1, hw2, hge⟩ := h l hl w hw hw'
      obtain ⟨hmap, hread⟩ := readable_fits (hfit l' hl')
      rw [← hmap] at hw1
      obtain ⟨g, hg, rfl⟩ := mem_map.mp hw1
      exact ⟨l', hl', g, hg, (hoff l' hl' g hg).mpr hw2, by rwa [(hread g hg).2.1]⟩
    · have hmem : writtenGroup g ∈ (written l.2).takeWhile Written.isNamed :=
        (readable_fits (hfit l hl)).1 ▸ mem_map_of_mem hg
      exact ⟨l, hl, writtenGroup g, takeWhile_subset _ hmem, (hoff l hl g hg).mp hg'⟩

set_option maxRecDepth 10000 in
theorem reached_iff_of_fits_nameless : ListFits namelessFirst ∧
    ¬ Reached (ascii "hello") [(listSource, namelessFirst)] := by
  have hval : ∀ l ∈ bufLines [] namelessFirst, ∀ f ∈ lineField (textOf l), f.2.length ≤ 15 := by decide
  have hfit : ListFits namelessFirst := ⟨by decide, fun l hl _ h => (hval l hl _ h).trans (by decide),
    fun l hl _ h => (hval l hl _ h).trans (by decide), fun l hl _ => hval l hl _⟩
  exact ⟨hfit, fun h => absurd ((reached_iff_of_fits (by simpa using hfit)).mp h) (by decide)⟩

end Lorica.Proof.Herald

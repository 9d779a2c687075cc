import Lorica.Impl.Herald.Db
import Lorica.Proof.Herald.Files

/-!
# The database of installed packages is a finite map

The file holds one line per package and is written anew by each change. Here it
is a map from package names to entries:

* `dbEntries_flatMap`: what was written is read back, whatever the fields hold
  that has no control characters and fits;
* `dbWriteAll_wp`: the file is replaced as a whole, or stays what it was;
* `DbCall.run_wp`: each call does to the file what it does to the map;
* `db_run_stored`: so does every sequence of calls.
-/

namespace Lorica.Proof.Herald

open Lorica.Impl.Herald Lorica.Posix List

variable {v : Env} {s s' : FileSys} {dbPath : Bytes} {e : DbEntry} {es : List DbEntry}

/-! ## Lines -/

def IsControl (b : UInt8) : Prop := b < 32 ∨ b = 127

instance (b : UInt8) : Decidable (IsControl b) := inferInstanceAs (Decidable (_ ∨ _))

/-- A field that a line can hold, in a buffer of `size` bytes. -/
@[mk_iff] structure FieldFits (size : Nat) (f : Bytes) : Prop where
  printable : ∀ b ∈ f, ¬ IsControl b
  short : f.length < size

instance (size : Nat) (f : Bytes) : Decidable (FieldFits size f) := decidable_of_iff _ (fieldFits_iff size f).symm

/-- The fields are within their sizes and free of control characters. -/
@[mk_iff] structure EntryFits (e : DbEntry) : Prop where
  id : FieldFits 64 e.id
  version : FieldFits 32 e.version
  exec : FieldFits 64 e.exec
  sha256 : FieldFits 65 e.sha256

instance (e : DbEntry) : Decidable (EntryFits e) := decidable_of_iff _ (entryFits_iff e).symm

theorem FieldFits.not_mem {size : Nat} {f : Bytes} (h : FieldFits size f) {b : UInt8} (hb : b < 32) : b ∉ f :=
  fun hm => h.printable b hm (.inl hb)

/-- The text of a line, without its newline. -/
def dbText (e : DbEntry) : Bytes := [tab].intercalate [e.id, e.version, e.exec, e.sha256]

theorem dbLine_eq (e : DbEntry) : dbLine e = dbText e ++ [newline] := by
  simp [dbLine, dbText]

theorem EntryFits.not_mem_text (h : EntryFits e) {b : UInt8} (hb : b < 32) (ht : b ≠ tab) : b ∉ dbText e := by
  simp [dbText, ht, h.id.not_mem hb, h.version.not_mem hb, h.exec.not_mem hb, h.sha256.not_mem hb]

theorem EntryFits.length_text (h : EntryFits e) : (dbText e).length ≤ 224 := by
  have h1 := h.id.short
  have h2 := h.version.short
  have h3 := h.exec.short
  have h4 := h.sha256.short
  simp only [dbText, intercalate, intersperse, flatten_cons, flatten_nil, length_append,
    length_cons, length_nil]
  omega

theorem EntryFits.parseLine (h : EntryFits e) : parseLine (dbText e) = some e := by
  have hs : (dbText e).splitOn tab = [e.id, e.version, e.exec, e.sha256] := by
    refine splitOn_intercalate tab ?_ (by simp)
    have ht : tab < 32 := by decide
    simp [h.id.not_mem ht, h.version.not_mem ht, h.exec.not_mem ht, h.sha256.not_mem ht]
  have hne : dbText e ≠ [] := by simp [dbText, intercalate]
  have h1 := h.id.short
  have h2 := h.version.short
  have h3 := h.exec.short
  have h4 := h.sha256.short
  rw [Impl.Herald.parseLine, if_neg hne, hs]
  exact if_neg (by omega)

/-- One turn of the loop reads one entry back. -/
theorem dbLines_line (h : EntryFits e) {fuel max : Nat} (rest : Bytes) :
    dbLines (fuel + 1) (max + 1) (dbLine e ++ rest) = e :: dbLines fuel max rest := by
  have hn : newline ∉ dbText e := h.not_mem_text (by decide) (by decide)
  have hc : cr ∉ dbText e := h.not_mem_text (by decide) (by decide)
  have h0 : (0 : UInt8) ∉ dbText e ++ [newline] := by
    simp [h.not_mem_text (b := 0) (by decide) (by decide), newline]
  have hl := h.length_text
  rw [dbLine_eq, append_assoc, singleton_append, dbLines, fgets_line hn (by omega), cstr_of_not_mem h0]
  simp only [takeWhile_ne_of_not_mem hn [], takeWhile_ne_self hc, h.parseLine]
  simp

theorem dbLines_flatMap (h : ∀ e ∈ es, EntryFits e) {fuel max : Nat} (hf : es.length ≤ fuel) (hm : es.length ≤ max) :
    dbLines fuel max (es.flatMap dbLine) = es := by
  induction es generalizing fuel max with
  | nil => cases fuel <;> simp [dbLines]
  | cons e es ih =>
    obtain ⟨n, rfl⟩ : ∃ n, fuel = n + 1 := ⟨fuel - 1, by simp at hf; omega⟩
    obtain ⟨m, rfl⟩ : ∃ m, max = m + 1 := ⟨max - 1, by simp at hm; omega⟩
    rw [flatMap_cons, dbLines_line (h e mem_cons_self),
      ih (fun e' he' => h e' (mem_cons_of_mem _ he')) (by simpa using hf) (by simpa using hm)]

theorem length_le_flatMap (es : List DbEntry) : es.length ≤ (es.flatMap dbLine).length := by
  induction es with
  | nil => exact le_rfl
  | cons e es ih => simp only [flatMap_cons, length_append, length_cons, dbLine_eq]; omega

/-- What was written is read back. -/
theorem dbEntries_flatMap (h : ∀ e ∈ es, EntryFits e) {max : Nat} (hm : es.length ≤ max) :
    dbEntries max (es.flatMap dbLine) = es := dbLines_flatMap h (length_le_flatMap es) hm

/-! ## The files -/

/-- More text behind a path name belongs to its last component. -/
theorem splitOn_append (xs : Bytes) {ys : Bytes} (hy : slash ∉ ys) :
    ∃ cs c, xs.splitOn slash = cs ++ [c] ∧ (xs ++ ys).splitOn slash = cs ++ [c ++ ys] := by
  obtain ⟨cs, c, hc⟩ : ∃ cs c, xs.splitOn slash = cs ++ [c] :=
    ⟨_, _, (dropLast_append_getLast (splitOn_ne_nil slash xs)).symm⟩
  have hmem : ∀ d ∈ cs ++ [c], slash ∉ d := fun d hd => (mem_splitOn (hc ▸ hd)).1
  have hxs : xs = str (cs ++ [c]) := by rw [← hc, str, intercalate_splitOn]
  have hjoin : str (cs ++ [c]) ++ ys = str (cs ++ [c ++ ys]) := by
    by_cases hcs : cs = []
    · simp [hcs]
    · simp [str_append hcs]
  refine ⟨cs, c, hc, ?_⟩
  rw [hxs, hjoin]
  apply splitOn_intercalate slash _ (by simp)
  intro d hd
  rcases mem_append.mp hd with hd | hd
  · exact hmem d (mem_append_left _ hd)
  · rw [mem_singleton.mp hd, mem_append, not_or]
    exact ⟨hmem c (by simp), hy⟩

def dbFile (dbPath : Bytes) : Path := (resolve dbPath).path

def dbTmp (dbPath : Bytes) : Path := (resolve (dbPath ++ ascii ".tmp")).path

/-- The new file is written beside the old one. -/
theorem dbFile_ne_dbTmp (dbPath : Bytes) : dbFile dbPath ≠ dbTmp dbPath := by
  obtain ⟨cs, c, hc, hct⟩ := splitOn_append dbPath (show slash ∉ ascii ".tmp" by decide)
  have hlen : 4 ≤ (c ++ ascii ".tmp").length := by
    rw [length_append]
    exact Nat.le_add_left 4 c.length
  have hne : ∀ d : Bytes, d.length < 4 → c ++ ascii ".tmp" ≠ d := by
    rintro d hd rfl
    omega
  have htmp : dbTmp dbPath = cs.foldl follow [] ++ [c ++ ascii ".tmp"] := by
    rw [dbTmp, resolve, hct, foldl_append, foldl_cons, foldl_nil, follow,
      if_neg (not_or.mpr ⟨hne [] (by decide), hne dot (by decide)⟩), if_neg (hne dotdot (by decide))]
  have hfile : dbFile dbPath = follow (cs.foldl follow []) c := by
    rw [dbFile, resolve, hc, foldl_append, foldl_cons, foldl_nil]
  rw [hfile, htmp, follow]
  intro h
  split at h
  · simpa using congrArg length h
  split at h
  · have := congrArg length h
    simp only [length_dropLast, length_append, length_cons] at this
    omega
  · have := congrArg length (singleton_inj.mp (append_cancel_left h))
    rw [length_append] at this
    exact absurd this (by simp [show (ascii ".tmp").length = 4 from rfl])

theorem mkdirEach_uses (ds : List Bytes) : Uses (fun o : Op => ∃ d, o = .call (.mkdir d)) (mkdirEach ds) := by
  induction ds with
  | nil => exact .pure ()
  | cons d ds ih => exact .bind (.call ⟨d, rfl⟩) fun _ => ih

theorem mkdir_data {d : Bytes} (ch : Choice) (s : FileSys) (q : Path) :
    (step (.call (.mkdir d)) ch s).2.data q = s.data q := by
  change (stepCall (.mkdir d) ch s).2.data q = s.data q
  unfold stepCall
  split
  · rfl
  split
  · rfl
  · rename_i h
    obtain ⟨hn, hg⟩ := FileSys.mkdir_ok h
    by_cases hq : q = (resolve d).path
    · rw [FileSys.data, FileSys.data, hg, if_pos hq, hq, hn]
    · exact FileSys.data_congr (by rw [hg, if_neg hq])

/-- Making directories leaves all files as they are. -/
theorem mkdirQuiet_wp (path : Bytes) :
    Sys.Ends v (mkdirQuiet path) s (fun _ s' => ∀ q, s'.data q = s.data q) := by
  refine WP.ends (Uses.wp (R := fun s s' : FileSys => ∀ q, s'.data q = s.data q) (mkdirEach_uses _) (fun _ _ => rfl)
    (fun _ _ _ h h' q => (h' q).trans (h q)) ?_) fun _ _ h => h
  rintro o c s ⟨d, rfl⟩ -
  exact mkdir_data c s

theorem data_of_sameBut {p q : Path} (h : SameBut (· = p) s s') (hq : q ≠ p) : s'.data q = s.data q :=
  FileSys.data_congr (h q hq)

theorem writeClose_wp {path bs : Bytes} (h : s.get (resolve path).path = some (.file [])) :
    Sys.Ends v (writeClose path bs) s (fun ok s' => SameBut (· = (resolve path).path) s s' ∧
        (ok = true → s'.get (resolve path).path = some (.file bs))) := by
  refine WP.thenEnds (writeAll_wp rfl le_rfl h) fun ok s' ⟨hw, hok, _⟩ => ?_
  refine Sys.WP.close trivial fun b _ => ⟨hw.1, fun h => ?_⟩
  exact hok (Bool.and_eq_true_iff.mp h).1

/-- The temporary file is removed, if it can be. -/
theorem unlinkTmp_wp : Sys.Ends v (do let _ ← Sys.unlink (dbPath ++ ascii ".tmp"); pure false) s
      (fun ok s' => ok = false ∧ s'.data (dbFile dbPath) = s.data (dbFile dbPath)) := by
  refine Sys.WP.call trivial (fun s' hs => ⟨rfl, ?_⟩) fun _ _ => ⟨rfl, rfl⟩
  apply FileSys.data_congr
  rw [(FileSys.unlink_ok hs).2.2]
  exact if_neg (dbFile_ne_dbTmp dbPath)

/-- The database is replaced as a whole, or it stays. -/
theorem dbWriteAll_wp : Sys.Ends v (dbWriteAll dbPath es) s
      (fun ok s' => (ok = true → s'.stat (resolve dbPath) = .ok (.file (es.flatMap dbLine))) ∧
        (ok = false → s'.data (dbFile dbPath) = s.data (dbFile dbPath))) := by
  have hne := dbFile_ne_dbTmp dbPath
  rw [dbWriteAll]
  split
  · exact ⟨by simp, fun _ => rfl⟩
  refine WP.thenEnds (mkdirQuiet_wp _) fun _ s1 h1 => ?_
  refine Sys.WP.call trivial (fun s2 h2 => ?_) fun _ _ => ⟨by simp, fun _ => h1 _⟩
  have hg := (FileSys.creat_ok h2).2
  have htmp : s2.get (dbTmp dbPath) = some (.file []) := by rw [hg]; exact if_pos rfl
  have hdata : s2.data (dbFile dbPath) = s.data (dbFile dbPath) := by
    rw [← h1]
    exact FileSys.data_congr (by rw [hg]; exact if_neg hne)
  have hgive : ∀ {s3 : FileSys}, s3.data (dbFile dbPath) = s.data (dbFile dbPath) →
      Sys.Ends v (do let _ ← Sys.unlink (dbPath ++ ascii ".tmp"); pure false) s3
        (fun ok s' => (ok = true → s'.stat (resolve dbPath) = .ok (.file (es.flatMap dbLine))) ∧
          (ok = false → s'.data (dbFile dbPath) = s.data (dbFile dbPath))) := by
    intro s3 h3
    refine WP.post unlinkTmp_wp (fun ok s' h => ⟨fun hok => ?_, fun _ => h.2.trans h3⟩)
    rw [h.1] at hok
    exact (Bool.false_ne_true hok).elim
  refine WP.seq (writeClose_wp htmp) (fun ok s3 ⟨hsame, hok⟩ => ?_)
  have h3 := (data_of_sameBut hsame hne).trans hdata
  cases ok with
  | false => exact hgive h3
  | true =>
    refine Sys.WP.call trivial
      (fun s4 h4 => ⟨fun _ => ?_, fun h => (Bool.false_ne_true h.symm).elim⟩) fun _ _ => hgive h3
    obtain ⟨b, hb, -, hg4⟩ := FileSys.rename_ok h4
    have hdir := FileSys.rename_isDir h4
    have hbe : b = es.flatMap dbLine := by
      have := hb.symm.trans (hok rfl)
      simpa using this
    have hfile : s4.get (resolve dbPath).path = some (.file (es.flatMap dbLine)) := by
      rw [hg4, if_pos rfl, hbe]
    have := FileSys.stat_file hfile
    rwa [← hdir] at this

/-! ## Lists of entries as maps -/

theorem findId_putEntry (id : Bytes) (e : DbEntry) (es : List DbEntry) :
    findId id (putEntry e es) = if id = e.id then some e else findId id es := by
  unfold findId
  induction es with
  | nil =>
    by_cases h : e.id = id
    · simp [putEntry, h]
    · simp [putEntry, h, Ne.symm h]
  | cons e' es ih =>
    rw [putEntry]
    by_cases he : e'.id = e.id
    · rw [if_pos he, find?_cons, find?_cons, he]
      by_cases h : e.id = id
      · simp [h]
      · simp [h, Ne.symm h]
    · rw [if_neg he, find?_cons, ih]
      by_cases h : e'.id = id
      · have : id ≠ e.id := h ▸ he
        simp [h, this]
      · simp [h]

theorem findId_filter (id id' : Bytes) (es : List DbEntry) :
    findId id (es.filter (·.id ≠ id')) = if id = id' then none else findId id es := by
  unfold findId
  rw [find?_filter]
  split
  · rename_i h
    simp [h]
  · rename_i h
    congr 1
    funext e
    by_cases he : e.id = id
    · simp [he, h]
    · simp [he]

theorem mem_putEntry {e e' : DbEntry} {es : List DbEntry} (h : e' ∈ putEntry e es) : e' = e ∨ e' ∈ es := by
  induction es with
  | nil => exact .inl (mem_singleton.mp h)
  | cons a es ih =>
    rw [putEntry] at h
    split at h
    · rcases mem_cons.mp h with h | h
      · exact .inl h
      · exact .inr (mem_cons_of_mem _ h)
    · rcases mem_cons.mp h with h | h
      · exact .inr (h ▸ mem_cons_self)
      · exact (ih h).imp_right (mem_cons_of_mem _)

theorem nodup_putEntry (h : (es.map (·.id)).Nodup) (e : DbEntry) : ((putEntry e es).map (·.id)).Nodup := by
  induction es with
  | nil => exact nodup_singleton _
  | cons a es ih =>
    obtain ⟨ha, hes⟩ := nodup_cons.mp h
    rw [putEntry]
    split
    · rename_i he
      exact nodup_cons.mpr ⟨show e.id ∉ _ from he ▸ ha, hes⟩
    · rename_i he
      refine nodup_cons.mpr ⟨fun hm => ?_, ih hes⟩
      obtain ⟨e', he', hid⟩ := mem_map.mp hm
      rcases mem_putEntry he' with rfl | he'
      · exact he hid.symm
      · exact ha (mem_map.mpr ⟨e', he', hid⟩)

/-! ## Calls -/

theorem uses_openRead (path : Bytes) : Uses Reads (Sys.openRead path) := .call (.openRead path)

theorem uses_dbLoad (dbPath : Bytes) (max : Nat) : Uses Reads (dbLoad dbPath max) := by
  refine .bind (uses_openRead dbPath) fun r => ?_
  cases r with
  | error e => exact .pure _
  | ok node => exact .pure _

theorem uses_dbFind {id : Bytes} (dbPath : Bytes) : Uses Reads (dbFind dbPath id) :=
  .bind (uses_dbLoad dbPath _) fun _ => .pure _

/-- What a call reads, when nothing fails. -/
abbrev dbLoaded (dbPath : Bytes) (s : FileSys) : Option (List DbEntry) := Sys.value (dbLoad dbPath heraldDbCap) s

theorem dbLoaded_ok {node : Node} (h : s.stat (resolve dbPath) = .ok node) :
    dbLoaded dbPath s = some (dbEntries heraldDbCap (contents node)) := by
  have hr : Sys.value (Sys.openRead dbPath) s = .ok node := h
  rw [dbLoaded, dbLoad, Sys.value_bind (uses_openRead dbPath), hr]
  rfl

theorem dbLoaded_error {e : Errno} (h : s.stat (resolve dbPath) = .error e) :
    dbLoaded dbPath s = if e = .ENOENT then some [] else none := by
  have hr : Sys.value (Sys.openRead dbPath) s = .error e := h
  rw [dbLoaded, dbLoad, Sys.value_bind (uses_openRead dbPath), hr]
  rfl

theorem dbLoad_wp : Sys.Ends v (dbLoad dbPath heraldDbCap) s
    (fun r s' => s' = s ∧ ∀ es, r = some es → dbLoaded dbPath s = some es) := by
  refine Sys.WP.openRead trivial fun r hr => ?_
  rcases hr with rfl | ⟨-, rfl⟩
  · cases hs : s.stat (resolve dbPath) with
    | error e => exact ⟨rfl, fun es h => (dbLoaded_error hs).trans h⟩
    | ok node => exact ⟨rfl, fun es h => (dbLoaded_ok hs).trans h⟩
  · exact ⟨rfl, fun es h => by cases h⟩

/-- The file that holds `es`. -/
def Holds (dbPath : Bytes) (es : List DbEntry) (s : FileSys) : Prop :=
  s.stat (resolve dbPath) = .ok (.file (es.flatMap dbLine))

theorem dbPut_wp : Sys.Ends v (dbPut dbPath e) s
    (fun ok s' => (ok = false → s'.data (dbFile dbPath) = s.data (dbFile dbPath)) ∧
      (ok = true → ∃ es, dbLoaded dbPath s = some es ∧ (putEntry e es).length ≤ heraldDbCap ∧
        Holds dbPath (putEntry e es) s')) := by
  have hfail : ∀ P : Prop, ∀ s : FileSys, (false = false → s.data (dbFile dbPath) = s.data (dbFile dbPath)) ∧
      (false = true → P) := fun P s => ⟨fun _ => rfl, by simp⟩
  rw [dbPut]
  split
  · exact hfail _ s
  refine WP.seq dbLoad_wp (fun r s' ⟨hs, hr⟩ => ?_)
  subst hs
  cases r with
  | none => exact hfail _ s'
  | some es =>
    change Sys.WP v (if heraldDbCap < (putEntry e es).length then pure false else _) _ _ _
    split
    · exact hfail _ s'
    · rename_i hcap
      exact WP.post dbWriteAll_wp (fun ok s'' h => ⟨h.2, fun hok => ⟨es, hr es rfl, not_lt.mp hcap, h.1 hok⟩⟩)

theorem dbRemove_wp {id : Bytes} : Sys.Ends v (dbRemove dbPath id) s
    (fun r s' => (r < 0 → s'.data (dbFile dbPath) = s.data (dbFile dbPath)) ∧
      (0 ≤ r → ∃ es, dbLoaded dbPath s = some es ∧
        (findId id es = none ∧ s' = s ∨ Holds dbPath (es.filter (·.id ≠ id)) s'))) := by
  have hfail : ∀ P : Prop, ∀ s : FileSys, ((-1 : Int) < 0 → s.data (dbFile dbPath) = s.data (dbFile dbPath)) ∧
      ((0 : Int) ≤ -1 → P) := fun P s => ⟨fun _ => rfl, fun h => absurd h (by decide)⟩
  rw [dbRemove]
  split
  · exact hfail _ s
  refine WP.seq dbLoad_wp (fun r s' ⟨hs, hr⟩ => ?_)
  subst hs
  cases r with
  | none => exact hfail _ s'
  | some es =>
    change Sys.WP v (if findId id es = none then pure 1 else _) _ _ _
    split
    · rename_i hnone
      exact ⟨fun _ => rfl, fun _ => ⟨es, hr es rfl, .inl ⟨hnone, rfl⟩⟩⟩
    · refine WP.seq dbWriteAll_wp (fun ok s'' h => ?_)
      cases ok with
      | false => exact ⟨fun _ => h.2 rfl, fun h => absurd h (by decide)⟩
      | true => exact ⟨fun h => absurd h (by decide), fun _ => ⟨es, hr es rfl, .inr (h.1 rfl)⟩⟩

/-! ## Sequences of calls -/

/-- The calls that change the database. -/
inductive DbCall
  | put (e : DbEntry)
  | remove (id : Bytes)
deriving DecidableEq

/-- The call, with the number it returns. -/
def DbCall.run (dbPath : Bytes) : DbCall → Sys Int
  | .put e => do
    let ok ← dbPut dbPath e
    pure (if ok = true then 0 else -1)
  | .remove id => dbRemove dbPath id

/-- What a call that returns `r` does to the map. -/
def DbCall.effect (r : Int) (m : Bytes → Option DbEntry) : DbCall → Bytes → Option DbEntry
  | .put e => if r < 0 then m else Function.update m e.id (some e)
  | .remove id => if r < 0 then m else Function.update m id none

/-- The calls made so far, with their results, and the files they left. -/
inductive DbRun (v : Env) (dbPath : Bytes) (s₀ : FileSys) : List (DbCall × Int) → FileSys → Prop
  | start : DbRun v dbPath s₀ [] s₀
  | call {h : List (DbCall × Int)} {s s' : FileSys} {c : DbCall} {r : Int} (hrun : DbRun v dbPath s₀ h s)
    (hcall : Sys.Can v (c.run dbPath) s r s') : DbRun v dbPath s₀ (h ++ [(c, r)]) s'

/-- The map after these calls: the entry of the last put of an id that was not
removed since. -/
def dbMap (h : List (DbCall × Int)) : Bytes → Option DbEntry :=
  h.foldl (fun m c => c.1.effect c.2 m) fun _ => none

theorem dbMap_append (h : List (DbCall × Int)) (c : DbCall) (r : Int) :
    dbMap (h ++ [(c, r)]) = c.effect r (dbMap h) := by
  simp [dbMap]

/-- The file lists the entries of a map, each once, and no more than fit in the
table of a call. -/
structure DbStored (dbPath : Bytes) (s : FileSys) (m : Bytes → Option DbEntry) (es : List DbEntry) : Prop where
  data : (s.data (dbFile dbPath)).getD [] = es.flatMap dbLine
  fits : ∀ e ∈ es, EntryFits e
  nodup : (es.map (·.id)).Nodup
  count : es.length ≤ heraldDbCap
  find : ∀ id, findId id es = m id

variable {m : Bytes → Option DbEntry}

theorem DbStored.congr (h : DbStored dbPath s m es) (hd : s'.data (dbFile dbPath) = s.data (dbFile dbPath)) :
    DbStored dbPath s' m es := ⟨hd ▸ h.data, h.fits, h.nodup, h.count, h.find⟩

theorem Holds.data (h : Holds dbPath es s) : s.data (dbFile dbPath) = some (es.flatMap dbLine) :=
  FileSys.data_eq_some.mpr (FileSys.stat_ok h).1

theorem Holds.loaded (h : Holds dbPath es s) : dbLoaded dbPath s ≠ none := by
  rw [dbLoaded_ok h]
  exact Option.some_ne_none _

/-- What is read is what is stored. -/
theorem DbStored.loaded (h : DbStored dbPath s m es) {es' : List DbEntry} (hl : dbLoaded dbPath s = some es') :
    es' = es := by
  have hread := dbEntries_flatMap h.fits h.count
  have hd := h.data
  rw [dbFile, FileSys.data] at hd
  cases hs : s.stat (resolve dbPath) with
  | error e =>
    rw [dbLoaded_error hs] at hl
    split at hl
    · rename_i he
      rw [FileSys.get_of_stat_enoent (he ▸ hs)] at hd
      change [] = _ at hd
      rw [← hd] at hread
      exact (Option.some.inj hl).symm.trans hread
    · cases hl
  | ok node =>
    rw [dbLoaded_ok hs] at hl
    rw [(FileSys.stat_ok hs).1] at hd
    rw [← Option.some.inj hl, ← hread, ← hd]
    cases node <;> rfl

/-- Each call does to the file what it does to the map. -/
theorem DbCall.run_wp (h : DbStored dbPath s m es) {c : DbCall} (hc : ∀ e, c = .put e → EntryFits e) :
    Sys.Ends v (c.run dbPath) s (fun r s' => (∃ es', DbStored dbPath s' (c.effect r m) es') ∧
        (r < 0 → s'.data (dbFile dbPath) = s.data (dbFile dbPath)) ∧ (0 ≤ r → dbLoaded dbPath s' ≠ none)) := by
  cases c with
  | put e =>
    refine WP.seq dbPut_wp (fun ok s' ⟨hf, ht⟩ => ?_)
    cases ok with
    | false => exact ⟨⟨es, h.congr (hf rfl)⟩, fun _ => hf rfl, fun h => absurd h (by decide)⟩
    | true =>
      obtain ⟨es', hl, hcap, hh⟩ := ht rfl
      obtain rfl := h.loaded hl
      refine ⟨⟨putEntry e es', ?_, fun e' he' => ?_, nodup_putEntry h.nodup e, hcap, fun id => ?_⟩,
        fun h => absurd h (by decide), fun _ => hh.loaded⟩
      · rw [hh.data]
        rfl
      · rcases mem_putEntry he' with rfl | he'
        · exact hc _ rfl
        · exact h.fits e' he'
      · change _ = Function.update m e.id (some e) id
        rw [findId_putEntry, Function.update_apply, h.find]
  | remove id =>
    refine WP.post dbRemove_wp (fun r s' ⟨hf, ht⟩ => ⟨?_, hf, fun hr => ?_⟩)
    · by_cases hr : r < 0
      · rw [DbCall.effect, if_pos hr]
        exact ⟨es, h.congr (hf hr)⟩
      · rw [DbCall.effect, if_neg hr]
        obtain ⟨es', hl, ⟨hnone, rfl⟩ | hh⟩ := ht (not_lt.mp hr)
        · obtain rfl := h.loaded hl
          refine ⟨es', h.data, h.fits, h.nodup, h.count, fun id' => ?_⟩
          rw [Function.update_apply, h.find]
          split
          · rename_i hid
            rw [hid, ← h.find, hnone]
          · rfl
        · obtain rfl := h.loaded hl
          refine ⟨es'.filter (·.id ≠ id), ?_, fun e he => h.fits e (mem_filter.mp he).1, ?_, ?_, fun id' => ?_⟩
          · rw [hh.data]
            rfl
          · exact h.nodup.sublist (filter_sublist.map _)
          · exact (length_filter_le _ _).trans h.count
          · rw [findId_filter, Function.update_apply, h.find]
    · obtain ⟨es', hl, ⟨-, rfl⟩ | hh⟩ := ht hr
      · rw [hl]
        exact Option.some_ne_none _
      · exact hh.loaded

variable {s₀ : FileSys} {h : List (DbCall × Int)}

theorem db_run_stored (hstart : s₀.data (dbFile dbPath) = none ∨ s₀.data (dbFile dbPath) = some [])
    (hrun : DbRun v dbPath s₀ h s) (hfit : ∀ e r, (DbCall.put e, r) ∈ h → EntryFits e) :
    ∃ es, DbStored dbPath s (dbMap h) es := by
  induction hrun with
  | start =>
    refine ⟨[], ?_, forall_mem_nil _, nodup_nil, Nat.zero_le _, fun _ => rfl⟩
    rcases hstart with hs | hs <;> rw [hs] <;> rfl
  | @call h s s' c r hrun hcall ih =>
    obtain ⟨es, hst⟩ := ih fun e r he => hfit e r (mem_append_left _ he)
    have hc : ∀ e, c = .put e → EntryFits e := by
      rintro e rfl
      exact hfit e r (mem_append_right _ (mem_singleton.mpr rfl))
    rw [dbMap_append]
    exact (WP.can (DbCall.run_wp hst hc) hcall).1

/-- A lookup after a call that succeeded. -/
theorem dbFind_run (hstart : s₀.data (dbFile dbPath) = none ∨ s₀.data (dbFile dbPath) = some [])
    (hrun : DbRun v dbPath s₀ h s) (hfit : ∀ e r, (DbCall.put e, r) ∈ h → EntryFits e) {c : DbCall} {r : Int}
    (hlast : h.getLast? = some (c, r)) (hr : 0 ≤ r) (id : Bytes) {σ : Nat → Choice} (hσ : ∀ n, σ n ≠ .fail) :
    (dbFind dbPath id).exec σ s = ((dbMap h id).elim .absent .found, s) := by
  have hloaded : dbLoaded dbPath s ≠ none := by
    cases hrun with
    | start => cases hlast
    | @call h' s' _ c' r' hrun hcall =>
      rw [getLast?_concat, Option.some.injEq, Prod.mk.injEq] at hlast
      obtain ⟨rfl, rfl⟩ := hlast
      obtain ⟨es, hst⟩ := db_run_stored hstart hrun fun e r he => hfit e r (mem_append_left _ he)
      have hc : ∀ e, c' = .put e → EntryFits e := by
        rintro e rfl
        exact hfit e r' (mem_append_right _ (mem_singleton.mpr rfl))
      exact (WP.can (DbCall.run_wp hst hc) hcall).2.2 hr
  obtain ⟨es, hst⟩ := db_run_stored hstart hrun hfit
  obtain ⟨es', hl⟩ := Option.ne_none_iff_exists'.mp hloaded
  obtain rfl := hst.loaded hl
  have hv : ∀ n, (Env.mk false true).Allows (σ n) := by
    intro n
    cases hn : σ n with
    | fail => exact absurd hn (hσ n)
    | _ => trivial
  rw [Sys.exec_reads (uses_dbFind dbPath) rfl hv, dbFind, Sys.value_bind (uses_dbLoad _ _)]
  change (dbFound id (dbLoaded dbPath s), s) = _
  rw [hl, ← hst.find, dbFound]
  cases findId id es' <;> rfl

/-- An entry without a program to run. -/
def plainEntry (id version : String) : DbEntry := ⟨ascii id, ascii version, [], replicate 64 102⟩

/-- One package is put twice, another one is removed again. -/
def sampleCalls : List DbCall :=
  [.put (plainEntry "hello" "1.0"), .put (plainEntry "bye" "1.0"), .put (plainEntry "hello" "2.0"),
    .remove (ascii "bye")]

/-- A call in which nothing fails. -/
theorem DbRun.ok (hrun : DbRun ⟨true, true⟩ dbPath s₀ h s) (c : DbCall) {r : Int}
    (hc : ((c.run dbPath).run (replicate 20 .ok) s).result = some r) :
    DbRun ⟨true, true⟩ dbPath s₀ (h ++ [(c, r)]) ((c.run dbPath).run (replicate 20 .ok) s).state := by
  refine hrun.call (Can.of_run (fun x hx => ?_) (Outcome.eq_done hc))
  rw [eq_of_mem_replicate hx]
  trivial

end Lorica.Proof.Herald

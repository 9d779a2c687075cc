import Lorica.Framework.Path

/-!
# A POSIX file system

`FileSys` is a finite tree of regular files and directories: a map from paths to
nodes in which every ancestor of a node is a directory, so that an orphan or an
entry below a file cannot be built. `get` reads a node; `set` and `erase` change
one where that keeps the tree a tree.

On them stand the system calls, on the location a path name resolves to (`stat`,
`creat`, `append`, `unlink`, `rename`, `mkdir`, `rmdir`, `readdir`), each with
the lemma that says, path by path, what its success did, and when it succeeds.
-/

namespace Lorica

open List

inductive Node
  | file (data : Bytes)
  | dir
deriving DecidableEq

/-- The error numbers the programs look at, and the others (`EIOERR`). -/
inductive Errno
  | ENOENT
  | ENOTDIR
  | EISDIR
  | EEXIST
  | ENOTEMPTY
  | EBUSY
  | EINVAL
  | EIOERR
deriving DecidableEq

structure FileSys where
  entries : AList fun _ : Path => Node
  root : entries.lookup [] = some .dir
  closed {p : Path} {n : Node} : entries.lookup p = some n →
    ∀ q ∈ ancestors p, entries.lookup q = some .dir
  valid {p : Path} : p ∈ entries → ValidPath p

namespace FileSys

variable {s s' : FileSys} {p q : Path} {l : Loc} {b : Bytes} {e : Errno}

/-- The node at a path. -/
def get (s : FileSys) (p : Path) : Option Node := s.entries.lookup p

/-- The file system with a root directory only. -/
def empty : FileSys where
  entries := AList.singleton [] .dir
  root := by decide
  closed {p n} h q hq := by
    have : p = [] := by
      by_contra e
      simp [AList.lookup, AList.singleton, dlookup, Ne.symm e] at h
    subst this; cases hq
  valid {p} h := by
    have : p = [] := by simpa [AList.mem_keys] using h
    subst this; exact .nil

/-- The paths at which something is. -/
def paths (s : FileSys) : List Path := s.entries.keys

theorem mem_paths : p ∈ s.paths ↔ s.get p ≠ none := by
  rw [paths, get, ne_eq, AList.lookup_eq_none, not_not, AList.mem_keys]

theorem get_root (s : FileSys) : s.get [] = some .dir := s.root

theorem get_ancestor {n : Node} (h : s.get p = some n) (hq : q ∈ ancestors p) :
    s.get q = some .dir := s.closed h q hq

theorem get_valid (h : s.get p ≠ none) : ValidPath p :=
  s.valid (by by_contra hn; exact h (AList.lookup_eq_none.mpr hn))

theorem ne_nil_of_file (h : s.get p = some (.file b)) : p ≠ [] := by
  rintro rfl; rw [s.get_root] at h; cases h

/-- Nothing is below a file. -/
theorem get_below_file (h : s.get p = some (.file b)) (hq : p ∈ ancestors q) : s.get q = none := by
  by_contra hn
  obtain ⟨n, hn⟩ := Option.ne_none_iff_exists'.mp hn
  rw [get_ancestor hn hq] at h
  cases h

/-- Nothing is below a path that is not there. -/
theorem get_below_none (h : s.get p = none) (hq : p ∈ ancestors q) : s.get q = none := by
  by_contra hn
  obtain ⟨n, hn⟩ := Option.ne_none_iff_exists'.mp hn
  rw [get_ancestor hn hq] at h
  cases h

/-- The contents of the regular file at a path. -/
def data (s : FileSys) (p : Path) : Option Bytes :=
  match s.get p with
  | some (.file b) => some b
  | _ => none

theorem data_eq_some : s.data p = some b ↔ s.get p = some (.file b) := by
  unfold data; split <;> simp_all

theorem data_eq_none : s.data p = none ↔ ∀ b, s.get p ≠ some (.file b) := by
  unfold data; split <;> simp_all

theorem data_congr (h : s'.get p = s.get p) : s'.data p = s.data p := by simp only [data, h]

/-! ## Changing one node -/

/-- A node can be put at `p`: its parents are directories. -/
def CanHold (s : FileSys) (p : Path) : Prop :=
  p ≠ [] ∧ ValidPath p ∧ ∀ q ∈ ancestors p, s.get q = some .dir

instance (s : FileSys) (p : Path) : Decidable (s.CanHold p) := inferInstanceAs (Decidable (_ ∧ _ ∧ _))

/-- The names in a directory. -/
def children (s : FileSys) (p : Path) : List Name :=
  s.paths.filterMap fun q => if q ≠ [] ∧ q.dropLast = p then q.getLast? else none

theorem child_eq {p q : Path} {n : Name}
    (h : (if q ≠ [] ∧ q.dropLast = p then q.getLast? else none) = some n) : q = p ++ [n] := by
  split at h
  · rename_i hq
    rw [← hq.2]
    exact (dropLast_append_getLast? n h).symm
  · cases h

theorem mem_children {n : Name} : n ∈ s.children p ↔ s.get (p ++ [n]) ≠ none := by
  rw [children, mem_filterMap]
  constructor
  · rintro ⟨q, hq, h⟩
    rw [← child_eq h]
    exact mem_paths.mp hq
  · exact fun h => ⟨_, mem_paths.mpr h, by simp⟩

theorem children_nodup (s : FileSys) (p : Path) : (s.children p).Nodup :=
  s.entries.keys_nodup.filterMap fun q q' n h h' => by rw [child_eq h, child_eq h']

theorem children_of_file (h : s.get p = some (.file b)) : s.children p = [] := by
  refine eq_nil_iff_forall_not_mem.mpr fun n hn => mem_children.mp hn ?_
  exact get_below_file h (ancestors_append_left (by simp))

/-- `s` with the node `n` at `p`, where `p` can hold it and no directory becomes
a file. -/
def set (s : FileSys) (p : Path) (n : Node) : FileSys :=
  if h : s.CanHold p ∧ (s.get p = some .dir → n = .dir) then
    { entries := s.entries.insert p n
      root := by rw [AList.lookup_insert_ne (Ne.symm h.1.1)]; exact s.root
      closed := fun {p' m} hm q hq => by
        by_cases e : q = p
        · subst e
          rw [AList.lookup_insert]
          by_cases e' : p' = q
          · subst e'; exact absurd hq (not_mem_ancestors_self _)
          · rw [AList.lookup_insert_ne e'] at hm
            rw [h.2 (s.closed hm q hq)]
        · rw [AList.lookup_insert_ne e]
          by_cases e' : p' = p
          · subst e'; exact h.1.2.2 q hq
          · rw [AList.lookup_insert_ne e'] at hm; exact s.closed hm q hq
      valid := fun {p'} hp' => by
        rcases (AList.mem_insert _).mp hp' with rfl | hp'
        · exact h.1.2.1
        · exact s.valid hp' }
  else s

/-- `s` without the node at `p`, if nothing is below it. -/
def erase (s : FileSys) (p : Path) : FileSys :=
  if h : p ≠ [] ∧ s.children p = [] then
    { entries := s.entries.erase p
      root := by rw [AList.lookup_erase_ne (Ne.symm h.1)]; exact s.root
      closed := fun {p' m} hm q hq => by
        by_cases e' : p' = p
        · subst e'; rw [AList.lookup_erase] at hm; cases hm
        · rw [AList.lookup_erase_ne e'] at hm
          by_cases e : q = p
          · -- a node below `p` would give `p` a child
            subst e
            obtain ⟨⟨t, rfl⟩, hne⟩ := mem_ancestors.mp hq
            obtain ⟨n, t, rfl⟩ := exists_cons_of_ne_nil (show t ≠ [] by simpa using hne)
            have hc : s.get (q ++ [n]) ≠ none := by
              by_cases ht : t = []
              · subst ht; rw [get, hm]; simp
              · rw [get_ancestor hm (mem_ancestors.mpr ⟨⟨t, by simp⟩, by simpa using Ne.symm ht⟩)]; simp
            have := mem_children.mpr hc
            rw [h.2] at this; cases this
          · rw [AList.lookup_erase_ne e]; exact s.closed hm q hq
      valid := fun {p'} hp' => s.valid (AList.mem_erase.mp hp').2 }
  else s

theorem get_set {n : Node} (hp : s.CanHold p) (hn : s.get p = some .dir → n = .dir) (q : Path) :
    (s.set p n).get q = if q = p then some n else s.get q := by
  rw [set, dif_pos ⟨hp, hn⟩]
  split
  · rename_i e; subst e; exact AList.lookup_insert _
  · rename_i e; exact AList.lookup_insert_ne e

theorem get_erase (hp : p ≠ []) (hc : s.children p = []) (q : Path) :
    (s.erase p).get q = if q = p then none else s.get q := by
  rw [erase, dif_pos ⟨hp, hc⟩]
  split
  · rename_i e; subst e; exact AList.lookup_erase _ _
  · rename_i e; exact AList.lookup_erase_ne e

/-- `s` with the node `n` at `p`, and the directories above it. -/
def put (s : FileSys) (p : Path) (n : Node) : FileSys :=
  ((ancestors p).foldl (fun s q => if s.get q = none then s.set q .dir else s) s).set p n

/-- The file system with these nodes, and the directories above them. -/
def ofList (l : List (Path × Node)) : FileSys := l.foldl (fun s e => s.put e.1 e.2) empty

/-! ## System calls -/

/-- Why the parent of `p` cannot be reached, if it cannot. -/
def blocked (s : FileSys) (p : Path) : Option Errno :=
  (ancestors p).findSome? fun q =>
    match s.get q with
    | some .dir => none
    | some (.file _) => some .ENOTDIR
    | none => some .ENOENT

theorem blocked_eq_none : s.blocked p = none ↔ ∀ q ∈ ancestors p, s.get q = some .dir := by
  rw [blocked, findSome?_eq_none_iff]
  refine forall₂_congr fun q _ => ?_
  split <;> simp_all

theorem blocked_of_get (h : s.get p ≠ none) : s.blocked p = none := by
  obtain ⟨n, hn⟩ := Option.ne_none_iff_exists'.mp h
  exact blocked_eq_none.mpr fun q hq => get_ancestor hn hq

/-- A path that no file stands above is blocked by nothing but a missing
directory. -/
theorem blocked_of_clear (h : ∀ q ∈ ancestors p, ∀ b, s.get q ≠ some (.file b))
    (he : s.blocked p = some e) : e = .ENOENT := by
  obtain ⟨_, q, _, hl, hq, _⟩ := findSome?_eq_some_iff.mp he
  split at hq <;> simp_all

/-- `lstat`, and the checks of `open` for reading. -/
def stat (s : FileSys) (l : Loc) : Except Errno Node :=
  match s.blocked l.path with
  | some e => .error e
  | none =>
    match s.get l.path with
    | none => .error .ENOENT
    | some (.file b) => if l.isDir then .error .ENOTDIR else .ok (.file b)
    | some .dir => .ok .dir

theorem stat_ok {n : Node} (h : s.stat l = .ok n) : s.get l.path = some n ∧ (l.isDir = true → n = .dir) := by
  unfold stat at h
  split at h <;> [cases h; skip]
  split at h
  · cases h
  · split at h <;> cases h
    rename_i hd
    exact ⟨‹_›, fun hl => absurd hl hd⟩
  · cases h; exact ⟨‹_›, fun _ => rfl⟩

theorem stat_file (h : s.get p = some (.file b)) : s.stat ⟨p, false⟩ = .ok (.file b) := by
  rw [stat, blocked_of_get (by simp [h])]; simp [h]

theorem stat_dir (h : s.get p = some .dir) (d : Bool) : s.stat ⟨p, d⟩ = .ok .dir := by
  rw [stat, blocked_of_get (by simp [h])]; simp [h]

/-- A missing file is missing, and not otherwise in error, where no file stands
above it. -/
theorem stat_none (h : s.get p = none) (hc : ∀ q ∈ ancestors p, ∀ b, s.get q ≠ some (.file b))
    (d : Bool) : s.stat ⟨p, d⟩ = .error .ENOENT := by
  unfold stat
  cases hb : s.blocked p with
  | some e => simp only [blocked_of_clear hc hb]
  | none => simp [h]

theorem get_of_stat_enoent (h : s.stat l = .error .ENOENT) : s.get l.path = none := by
  by_contra hn
  unfold stat at h
  rw [blocked_of_get hn] at h
  simp only at h
  split at h
  · exact hn ‹_›
  · split at h <;> cases h
  · cases h

/-- `open` for writing, creating the file or cutting it to nothing. -/
def creat (s : FileSys) (l : Loc) : Except Errno FileSys :=
  match s.blocked l.path with
  | some e => .error e
  | none =>
    if s.get l.path = some .dir ∨ l.isDir = true then .error .EISDIR
    else if s.CanHold l.path then .ok (s.set l.path (.file []))
    else .error .EINVAL

theorem creat_ok (h : s.creat l = .ok s') :
    s.get l.path ≠ some .dir ∧ ∀ q, s'.get q = if q = l.path then some (.file []) else s.get q := by
  unfold creat at h
  split at h <;> [cases h; skip]
  split at h <;> [cases h; skip]
  rename_i hd
  split at h <;> cases h
  rename_i hh
  exact ⟨fun e => hd (.inl e), get_set hh fun e => absurd (.inl e) hd⟩

theorem creat_eq (hv : ValidPath p) (hp : p ≠ []) (ha : ∀ q ∈ ancestors p, s.get q = some .dir)
    (hd : s.get p ≠ some .dir) : s.creat ⟨p, false⟩ = .ok (s.set p (.file [])) := by
  rw [creat, blocked_eq_none.mpr ha]
  simp [hd, show s.CanHold p from ⟨hp, hv, ha⟩]

/-- Bytes written at the end of an open file. A file that has been unlinked
since it was opened is written unseen. -/
def append (s : FileSys) (l : Loc) (bs : Bytes) : FileSys :=
  match s.get l.path with
  | some (.file b) => s.set l.path (.file (b ++ bs))
  | _ => s

theorem get_append_file (h : s.get l.path = some (.file b)) (bs : Bytes) (q : Path) :
    (s.append l bs).get q = if q = l.path then some (.file (b ++ bs)) else s.get q := by
  have hh : s.CanHold l.path :=
    ⟨ne_nil_of_file h, get_valid (h ▸ Option.some_ne_none _), fun _ => get_ancestor h⟩
  simp only [append, h]
  exact get_set hh (fun e => by simp [h] at e) q

theorem get_append_ne (bs : Bytes) (h : q ≠ l.path) : (s.append l bs).get q = s.get q := by
  cases hg : s.get l.path with
  | none => simp [append, hg]
  | some n =>
    cases n with
    | dir => simp [append, hg]
    | file b => rw [get_append_file hg, if_neg h]

def unlink (s : FileSys) (l : Loc) : Except Errno FileSys :=
  match s.stat l with
  | .error e => .error e
  | .ok .dir => .error .EISDIR
  | .ok (.file _) => .ok (s.erase l.path)

theorem unlink_ok (h : s.unlink l = .ok s') : l.isDir = false ∧ (∃ b, s.get l.path = some (.file b)) ∧
      ∀ q, s'.get q = if q = l.path then none else s.get q := by
  unfold unlink at h
  split at h <;> cases h
  rename_i hs
  obtain ⟨hg, hd⟩ := stat_ok hs
  refine ⟨by by_contra hl; exact absurd (hd (by simpa using hl)) (by simp), ⟨_, hg⟩, ?_⟩
  exact get_erase (ne_nil_of_file hg) (children_of_file hg)

theorem unlink_file (h : s.get p = some (.file b)) : s.unlink ⟨p, false⟩ = .ok (s.erase p) := by
  rw [unlink, stat_file h]

theorem unlink_none (h : s.get p = none) (hc : ∀ q ∈ ancestors p, ∀ b, s.get q ≠ some (.file b))
    (d : Bool) : s.unlink ⟨p, d⟩ = .error .ENOENT := by
  rw [unlink, stat_none h hc]

theorem get_of_unlink_enoent (h : s.unlink l = .error .ENOENT) : s.get l.path = none := by
  unfold unlink at h
  split at h <;> cases h
  exact get_of_stat_enoent ‹_›

/-- `rename` of a regular file (directories are not renamed here). -/
def rename (s : FileSys) (l l' : Loc) : Except Errno FileSys :=
  match s.stat l with
  | .error e => .error e
  | .ok .dir => .error .EISDIR
  | .ok (.file b) =>
    match s.blocked l'.path with
    | some e => .error e
    | none =>
      if s.get l'.path = some .dir ∨ l'.isDir = true then .error .EISDIR
      else if s.CanHold l'.path then
        .ok (if l.path = l'.path then s else (s.set l'.path (.file b)).erase l.path)
      else .error .EINVAL

theorem rename_isDir {l' : Loc} (h : s.rename l l' = .ok s') : l'.isDir = false := by
  unfold rename at h
  split at h <;> [cases h; cases h; skip]
  split at h <;> [cases h; skip]
  split at h <;> [cases h; skip]
  rename_i hd
  by_contra hl
  exact hd (.inr (by simpa using hl))

theorem rename_ok {l' : Loc} (h : s.rename l l' = .ok s') :
    ∃ b, s.get l.path = some (.file b) ∧ s.get l'.path ≠ some .dir ∧
      ∀ q, s'.get q = if q = l'.path then some (.file b) else if q = l.path then none else s.get q := by
  unfold rename at h
  split at h <;> [cases h; cases h; skip]
  rename_i b hs
  have hg := (stat_ok hs).1
  split at h <;> [cases h; skip]
  split at h <;> [cases h; skip]
  rename_i hd
  split at h <;> cases h
  rename_i hh
  refine ⟨b, hg, fun e => hd (.inl e), fun q => ?_⟩
  have hset := get_set (n := .file b) hh fun e => absurd (.inl e) hd
  by_cases e : l.path = l'.path
  · simp only [e, ite_true]; split
    · rename_i hq; rw [hq, ← e, hg]
    · rfl
  · have hg' : (s.set l'.path (.file b)).get l.path = some (.file b) := by rw [hset, if_neg e, hg]
    rw [if_neg e, get_erase (ne_nil_of_file hg') (children_of_file hg')]
    split
    · rename_i hq; rw [if_neg (hq ▸ e)]
    · exact hset q

def mkdir (s : FileSys) (l : Loc) : Except Errno FileSys :=
  match s.blocked l.path with
  | some e => .error e
  | none =>
    if s.get l.path ≠ none then .error .EEXIST
    else if s.CanHold l.path then .ok (s.set l.path .dir)
    else .error .EINVAL

theorem mkdir_ok (h : s.mkdir l = .ok s') :
    s.get l.path = none ∧ ∀ q, s'.get q = if q = l.path then some .dir else s.get q := by
  unfold mkdir at h
  split at h <;> [cases h; skip]
  split at h <;> [cases h; skip]
  rename_i hn
  split at h <;> cases h
  exact ⟨not_not.mp hn, get_set ‹_› fun _ => rfl⟩

theorem get_of_mkdir_eexist (h : s.mkdir l = .error .EEXIST) : s.get l.path ≠ none := by
  unfold mkdir at h
  split at h
  · rename_i hb
    obtain ⟨_, q, _, _, hq, _⟩ := findSome?_eq_some_iff.mp hb
    cases h
    split at hq <;> cases hq
  · split at h
    · assumption
    · split at h <;> cases h

/-- Where every ancestor is a directory, `mkdir` makes the directory or finds
something there. -/
theorem mkdir_cases (hv : ValidPath p) (hp : p ≠ []) (ha : ∀ q ∈ ancestors p, s.get q = some .dir)
    (d : Bool) : s.mkdir ⟨p, d⟩ = .error .EEXIST ∨ ∃ s', s.mkdir ⟨p, d⟩ = .ok s' := by
  rw [mkdir, blocked_eq_none.mpr ha]
  by_cases hn : s.get p = none
  · exact .inr ⟨_, by simp only [hn, ne_eq, show s.CanHold p from ⟨hp, hv, ha⟩, ite_true]; rfl⟩
  · exact .inl (by simp [hn])

def rmdir (s : FileSys) (l : Loc) : Except Errno FileSys :=
  match s.stat l with
  | .error e => .error e
  | .ok (.file _) => .error .ENOTDIR
  | .ok .dir =>
    if l.path = [] then .error .EBUSY
    else if s.children l.path ≠ [] then .error .ENOTEMPTY
    else .ok (s.erase l.path)

theorem rmdir_ok (h : s.rmdir l = .ok s') :
    s.children l.path = [] ∧ ∀ q, s'.get q = if q = l.path then none else s.get q := by
  unfold rmdir at h
  split at h <;> [cases h; cases h; skip]
  split at h <;> [cases h; skip]
  split at h <;> cases h
  rename_i hp hc
  exact ⟨not_not.mp hc, get_erase hp (not_not.mp hc)⟩

/-- An empty directory can be removed. -/
theorem rmdir_dir (h : s.get p = some .dir) (hp : p ≠ []) (hc : s.children p = []) (d : Bool) :
    s.rmdir ⟨p, d⟩ = .ok (s.erase p) := by
  rw [rmdir, stat_dir h]
  simp [hp, hc]

theorem get_of_rmdir_enoent (h : s.rmdir l = .error .ENOENT) : s.get l.path = none := by
  unfold rmdir at h
  split at h
  · cases h; exact get_of_stat_enoent ‹_›
  · cases h
  · split at h <;> [cases h; skip]
    split at h <;> cases h

/-- The names `opendir` and `readdir` give, in the file system's own order. -/
def readdir (s : FileSys) (l : Loc) : Except Errno (List Name) :=
  match s.stat l with
  | .error e => .error e
  | .ok (.file _) => .error .ENOTDIR
  | .ok .dir => .ok (s.children l.path)

theorem readdir_ok {ns : List Name} (h : s.readdir l = .ok ns) :
    s.get l.path = some .dir ∧ ns = s.children l.path := by
  unfold readdir at h
  split at h <;> cases h
  exact ⟨(stat_ok ‹_›).1, rfl⟩

theorem readdir_dir (h : s.get l.path = some .dir) : s.readdir l = .ok (s.children l.path) := by
  rw [readdir, stat_dir h]

theorem get_of_readdir_enoent (h : s.readdir l = .error .ENOENT) : s.get l.path = none := by
  unfold readdir at h
  split at h <;> cases h
  exact get_of_stat_enoent ‹_›

end FileSys

end Lorica

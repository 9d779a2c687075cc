import Lorica.Framework.FileSys
import Lorica.Framework.Prog

/-!
# The machine of a POSIX program

The operations are the system calls a C program makes on files, named by path
names; an open file is named by the path it was opened at. The environment may
let a call fail (`fail`), a write stop short (`short`) and a directory be listed
in any order (`order`). A crash can cut a write to any of its prefixes (`tear`).
What has been opened for reading is read whole: that a `read` or `getdents`
after it fails, which `fgets` and `readdir` take for the end, is not modelled.

Each operation has its rule for `WP`: what the program has to do next for every
answer the call can give. An `Env` says which choices a run may meet: whether
calls fail, and whether writes stop short.
-/

namespace Lorica

/-- The system calls that succeed or set `errno`. -/
inductive Call
  | openTrunc (path : Bytes)
  | openAppend (path : Bytes)
  | unlink (path : Bytes)
  | rename (path path' : Bytes)
  | mkdir (path : Bytes)
  | rmdir (path : Bytes)
deriving DecidableEq

def Call.sem : Call → FileSys → Except Errno FileSys
  | .openTrunc path, s => s.creat (resolve path)
  | .openAppend path, s =>
    match s.stat (resolve path) with
    | .error e => .error e
    | .ok .dir => .error .EISDIR
    | .ok (.file _) => .ok s
  | .unlink path, s => s.unlink (resolve path)
  | .rename path path', s => s.rename (resolve path) (resolve path')
  | .mkdir path, s => s.mkdir (resolve path)
  | .rmdir path, s => s.rmdir (resolve path)

namespace Posix

inductive Op
  | call (c : Call)
  | lstat (path : Bytes)
  /-- `open` for reading, with the contents the reads then give. -/
  | openRead (path : Bytes)
  /-- `opendir`, with the names the calls of `readdir` then give. -/
  | readdir (path : Bytes)
  | write (path : Bytes) (bs : Bytes)
  | fsync (path : Bytes)
  | close (path : Bytes)
  | sync
deriving DecidableEq

def Op.Ret : Op → Type
  | .call _ => Except Errno Unit
  | .lstat _ => Except Errno Node
  | .openRead _ => Except Errno Node
  | .readdir _ => Except Errno (List Name)
  | .write _ _ => Except Errno Nat
  | .fsync _ => Bool
  | .close _ => Bool
  | .sync => Unit

/-- What the environment decides about one operation. -/
inductive Choice
  | ok
  | fail
  /-- A write stops after `n + 1` bytes. -/
  | short (n : Nat)
  /-- A directory is listed in this order. -/
  | order (ns : List Name)
deriving DecidableEq

/-- A call that the environment may let fail. -/
def stepCall (c : Call) (ch : Choice) (s : FileSys) : Except Errno Unit × FileSys :=
  if ch = .fail then (.error .EIOERR, s)
  else match c.sem s with
    | .error e => (.error e, s)
    | .ok s' => (.ok (), s')

def stepStat (path : Bytes) (ch : Choice) (s : FileSys) : Except Errno Node :=
  if ch = .fail then .error .EIOERR else s.stat (resolve path)

def stepReaddir (path : Bytes) (ch : Choice) (s : FileSys) : Except Errno (List Name) :=
  match ch with
  | .fail => .error .EIOERR
  | .order ns => (s.readdir (resolve path)).map fun ns' => if ns.isPerm ns' then ns else ns'
  | _ => s.readdir (resolve path)

def stepWrite (path bs : Bytes) (ch : Choice) (s : FileSys) : Except Errno Nat × FileSys :=
  match ch with
  | .fail => (.error .EIOERR, s)
  | .short n => (.ok (bs.take (n + 1)).length, s.append (resolve path) (bs.take (n + 1)))
  | _ => (.ok bs.length, s.append (resolve path) bs)

def step : (o : Op) → Choice → FileSys → o.Ret × FileSys
  | .call c, ch, s => stepCall c ch s
  | .lstat path, ch, s => (stepStat path ch s, s)
  | .openRead path, ch, s => (stepStat path ch s, s)
  | .readdir path, ch, s => (stepReaddir path ch s, s)
  | .write path bs, ch, s => stepWrite path bs ch s
  | .fsync _, ch, s => (decide (ch ≠ .fail), s)
  | .close _, ch, s => (decide (ch ≠ .fail), s)
  | .sync, _, s => ((), s)

/-- What a crash within an operation leaves of it: a prefix of what was being
written. -/
def tear : Op → Nat → FileSys → FileSys
  | .write path bs, k, s => s.append (resolve path) (bs.take k)
  | _, _, s => s

/-- The machine of a program that only uses files. -/
abbrev machine : Machine := ⟨FileSys, Op, Op.Ret, Choice, step, tear⟩

/-- What the environment may do in a run. -/
structure Env where
  /-- Calls may fail for reasons of its own. -/
  faults : Bool
  /-- Writes may stop short. -/
  shorts : Bool

def Env.Allows (v : Env) : Choice → Prop
  | .fail => v.faults = true
  | .short _ => v.shorts = true
  | _ => True

instance (v : Env) : (c : Choice) → Decidable (v.Allows c)
  | .fail => inferInstanceAs (Decidable (v.faults = true))
  | .short _ => inferInstanceAs (Decidable (v.shorts = true))
  | .ok => inferInstanceAs (Decidable True)
  | .order _ => inferInstanceAs (Decidable True)

end Posix

/-- Programs that use files. -/
abbrev Sys := Prog Posix.machine

open Posix List

/-! ## The calls, as programs -/

namespace Sys

def openTrunc (path : Bytes) : Sys (Except Errno Unit) := Prog.call (M := machine) (.call (.openTrunc path))
def openAppend (path : Bytes) : Sys (Except Errno Unit) := Prog.call (M := machine) (.call (.openAppend path))
def unlink (path : Bytes) : Sys (Except Errno Unit) := Prog.call (M := machine) (.call (.unlink path))
def rename (path path' : Bytes) : Sys (Except Errno Unit) :=
  Prog.call (M := machine) (.call (.rename path path'))
def mkdir (path : Bytes) : Sys (Except Errno Unit) := Prog.call (M := machine) (.call (.mkdir path))
def rmdir (path : Bytes) : Sys (Except Errno Unit) := Prog.call (M := machine) (.call (.rmdir path))
def lstat (path : Bytes) : Sys (Except Errno Node) := Prog.call (M := machine) (.lstat path)
def openRead (path : Bytes) : Sys (Except Errno Node) := Prog.call (M := machine) (.openRead path)
def readdir (path : Bytes) : Sys (Except Errno (List Name)) := Prog.call (M := machine) (.readdir path)
def write (path bs : Bytes) : Sys (Except Errno Nat) := Prog.call (M := machine) (.write path bs)
def fsync (path : Bytes) : Sys Bool := Prog.call (M := machine) (.fsync path)
def close (path : Bytes) : Sys Bool := Prog.call (M := machine) (.close path)
def sync : Sys Unit := Prog.call (M := machine) .sync

/-- `WP` for programs that use files, whatever the environment `v` may do. -/
abbrev WP {α : Type} (v : Env) (p : Sys α) (s : FileSys) (Q : α → FileSys → Prop)
    (C : Op → FileSys → Prop) : Prop :=
  Lorica.WP (M := machine) v.Allows p s Q C

/-- `WP` of the end alone. -/
abbrev Ends {α : Type} (v : Env) (p : Sys α) (s : FileSys) (Q : α → FileSys → Prop) : Prop :=
  WP v p s Q fun _ _ => True

/-- `Can` for programs that use files. -/
abbrev Can {α : Type} (v : Env) (p : Sys α) (s : FileSys) (a : α) (s' : FileSys) : Prop :=
  Lorica.Can (M := machine) v.Allows p s a s'

end Sys

/-! ## Their rules -/

section

variable {α : Type} {v : Env} {s : FileSys} {Q : α → FileSys → Prop} {C : Op → FileSys → Prop}
  {path path' : Bytes}

theorem Sys.WP.call {c : Call} {f : Except Errno Unit → Sys α} (hC : C (.call c) s)
    (hok : ∀ s', c.sem s = .ok s' → Sys.WP v (f (.ok ())) s' Q C)
    (herr : ∀ e, c.sem s = .error e ∨ v.faults = true ∧ e = .EIOERR → Sys.WP v (f (.error e)) s Q C) :
    Sys.WP v (Prog.call (M := machine) (.call c) >>= f) s Q C := by
  refine ⟨hC, fun ch hch => ?_⟩
  change Sys.WP v (f (stepCall c ch s).1) (stepCall c ch s).2 Q C
  by_cases hf : ch = .fail
  · subst hf
    exact herr _ (.inr ⟨hch, rfl⟩)
  · cases hs : c.sem s with
    | error e =>
      rw [show stepCall c ch s = (.error e, s) by simp [stepCall, hf, hs]]
      exact herr e (.inl hs)
    | ok s' =>
      rw [show stepCall c ch s = (.ok (), s') by simp [stepCall, hf, hs]]
      exact hok s' hs

theorem stepStat_cases {ch : Choice} (hch : v.Allows ch) :
    stepStat path ch s = s.stat (resolve path) ∨ v.faults = true ∧ stepStat path ch s = .error .EIOERR := by
  by_cases hf : ch = .fail
  · subst hf
    exact .inr ⟨hch, rfl⟩
  · exact .inl (if_neg hf)

theorem Sys.WP.lstat {f : Except Errno Node → Sys α} (hC : C (.lstat path) s)
    (h : ∀ r, r = s.stat (resolve path) ∨ v.faults = true ∧ r = .error .EIOERR → Sys.WP v (f r) s Q C) :
    Sys.WP v (Sys.lstat path >>= f) s Q C :=
  ⟨hC, fun _ hch => h _ (stepStat_cases hch)⟩

theorem Sys.WP.openRead {f : Except Errno Node → Sys α} (hC : C (.openRead path) s)
    (h : ∀ r, r = s.stat (resolve path) ∨ v.faults = true ∧ r = .error .EIOERR → Sys.WP v (f r) s Q C) :
    Sys.WP v (Sys.openRead path >>= f) s Q C :=
  ⟨hC, fun _ hch => h _ (stepStat_cases hch)⟩

/-- A directory is listed in some order, or cannot be read. -/
theorem Sys.WP.readdir {f : Except Errno (List Name) → Sys α} (hC : C (.readdir path) s)
    (hok : ∀ ns, s.get (resolve path).path = some .dir → ns.Perm (s.children (resolve path).path) →
      Sys.WP v (f (.ok ns)) s Q C)
    (herr : ∀ e, s.readdir (resolve path) = .error e ∨ v.faults = true ∧ e = .EIOERR →
      Sys.WP v (f (.error e)) s Q C) : Sys.WP v (Sys.readdir path >>= f) s Q C := by
  have key : ∀ g : List Name → List Name, (∀ ns, (g ns).Perm ns) →
      Sys.WP v (f ((s.readdir (resolve path)).map g)) s Q C := by
    intro g hg
    cases hr : s.readdir (resolve path) with
    | ok ns =>
      obtain ⟨hd, rfl⟩ := FileSys.readdir_ok hr
      exact hok _ hd (hg _)
    | error e => exact herr e (.inl hr)
  have hid := key id fun ns => List.Perm.refl _
  rw [Except.map_id] at hid
  refine ⟨hC, fun ch hch => ?_⟩
  change Sys.WP v (f (stepReaddir path ch s)) s Q C
  cases ch with
  | fail => exact herr _ (.inr ⟨hch, rfl⟩)
  | order ns =>
    refine key _ fun ns' => ?_
    split
    · rename_i hp; exact isPerm_iff.mp hp
    · exact List.Perm.refl _
  | ok => exact hid
  | short n => exact hid

/-- A write appends a prefix of its bytes, not empty, or fails. -/
theorem Sys.WP.write {bs : Bytes} {f : Except Errno Nat → Sys α} (hC : C (.write path bs) s)
    (hok : ∀ w, w ≤ bs.length → (bs ≠ [] → 0 < w) → (w = bs.length ∨ v.shorts = true) →
      Sys.WP v (f (.ok w)) (s.append (resolve path) (bs.take w)) Q C)
    (herr : v.faults = true → Sys.WP v (f (.error .EIOERR)) s Q C) : Sys.WP v (Sys.write path bs >>= f) s Q C := by
  have hfull := hok bs.length le_rfl (fun h => length_pos_of_ne_nil h) (.inl rfl)
  rw [take_length] at hfull
  refine ⟨hC, fun ch hch => ?_⟩
  change Sys.WP v (f (stepWrite path bs ch s).1) (stepWrite path bs ch s).2 Q C
  cases ch with
  | fail => exact herr (hch)
  | short n =>
    have hl : (bs.take (n + 1)).length = min (n + 1) bs.length := length_take ..
    have hpos : bs ≠ [] → 0 < (bs.take (n + 1)).length := fun h => by
      have := length_pos_of_ne_nil h
      omega
    have hw := hok (bs.take (n + 1)).length (by omega) hpos (.inr hch)
    rwa [show bs.take (bs.take (n + 1)).length = bs.take (n + 1) by
      rw [hl, ← take_eq_take_min]] at hw
  | ok => exact hfull
  | order ns => exact hfull

theorem Sys.WP.fsync {f : Bool → Sys α} (hC : C (.fsync path) s)
    (h : ∀ b, (b = false → v.faults = true) → Sys.WP v (f b) s Q C) : Sys.WP v (Sys.fsync path >>= f) s Q C :=
  ⟨hC, fun ch hch => h (decide (ch ≠ .fail)) fun hb => by
    have : ch = .fail := by simpa using hb
    subst this; exact hch⟩

theorem Sys.WP.close {f : Bool → Sys α} (hC : C (.close path) s)
    (h : ∀ b, (b = false → v.faults = true) → Sys.WP v (f b) s Q C) : Sys.WP v (Sys.close path >>= f) s Q C :=
  ⟨hC, fun ch hch => h (decide (ch ≠ .fail)) fun hb => by
    have : ch = .fail := by simpa using hb
    subst this; exact hch⟩

theorem Sys.WP.sync {f : Unit → Sys α} (hC : C .sync s) (h : Sys.WP v (f ()) s Q C) :
    Sys.WP v (Sys.sync >>= f) s Q C := ⟨hC, fun _ _ => h⟩

end

/-! ## Possible runs -/

section

variable {α : Type} {v : Env} {s s' : FileSys} {a : α} {path : Bytes}

theorem Sys.Can.lstat {f : Except Errno Node → Sys α} (h : Sys.Can v (f (s.stat (resolve path))) s a s') :
    Sys.Can v (Sys.lstat path >>= f) s a s' := ⟨.ok, trivial, h⟩

theorem Sys.Can.openRead {f : Except Errno Node → Sys α} (h : Sys.Can v (f (s.stat (resolve path))) s a s') :
    Sys.Can v (Sys.openRead path >>= f) s a s' := ⟨.ok, trivial, h⟩

theorem Sys.Can.openRead_fail {f : Except Errno Node → Sys α} (hv : v.faults = true)
    (h : Sys.Can v (f (.error .EIOERR)) s a s') : Sys.Can v (Sys.openRead path >>= f) s a s' := ⟨.fail, hv, h⟩

/-- A directory can be listed in any order. -/
theorem Sys.Can.readdir {f : Except Errno (List Name) → Sys α} {ns : List Name}
    (hd : s.get (resolve path).path = some .dir) (hns : ns.Perm (s.children (resolve path).path))
    (h : Sys.Can v (f (.ok ns)) s a s') : Sys.Can v (Sys.readdir path >>= f) s a s' := by
  refine ⟨.order ns, trivial, ?_⟩
  have : stepReaddir path (.order ns) s = .ok ns := by
    simp only [stepReaddir, FileSys.readdir_dir hd, Except.map, isPerm_iff.mpr hns, ite_true]
  change Lorica.Can (M := machine) v.Allows (f (stepReaddir path (.order ns) s)) s a s'
  rwa [this]

theorem Sys.Can.call {c : Call} {f : Except Errno Unit → Sys α} {s₁ : FileSys} (hs : c.sem s = .ok s₁)
    (h : Sys.Can v (f (.ok ())) s₁ a s') : Sys.Can v (Prog.call (M := machine) (.call c) >>= f) s a s' := by
  have hstep : stepCall c .ok s = (.ok (), s₁) := by rw [stepCall, if_neg nofun, hs]
  exact ⟨.ok, trivial, by change Sys.Can v (f (stepCall c .ok s).1) (stepCall c .ok s).2 a s'; rwa [hstep]⟩

theorem Sys.Can.call_fail {c : Call} {f : Except Errno Unit → Sys α} (hv : v.faults = true)
    (h : Sys.Can v (f (.error .EIOERR)) s a s') : Sys.Can v (Prog.call (M := machine) (.call c) >>= f) s a s' :=
  ⟨.fail, hv, h⟩

theorem Sys.Can.write {bs : Bytes} {f : Except Errno Nat → Sys α}
    (h : Sys.Can v (f (.ok bs.length)) (s.append (resolve path) bs) a s') :
    Sys.Can v (Sys.write path bs >>= f) s a s' := ⟨.ok, trivial, h⟩

theorem Sys.Can.fsync {f : Bool → Sys α} (h : Sys.Can v (f true) s a s') :
    Sys.Can v (Sys.fsync path >>= f) s a s' := ⟨.ok, trivial, h⟩

theorem Sys.Can.fsync_fail {f : Bool → Sys α} (hv : v.faults = true) (h : Sys.Can v (f false) s a s') :
    Sys.Can v (Sys.fsync path >>= f) s a s' := ⟨.fail, hv, h⟩

theorem Sys.Can.close {f : Bool → Sys α} (h : Sys.Can v (f true) s a s') :
    Sys.Can v (Sys.close path >>= f) s a s' := ⟨.ok, trivial, h⟩

end

/-! ## Directories stay -/

/-- Every directory of `s` is still one in `s'`. -/
def KeepsDirs (s s' : FileSys) : Prop := ∀ q, s.get q = some .dir → s'.get q = some .dir

/-- Only `rmdir` removes a directory. -/
def SparesDirs (o : Op) : Prop := ∀ path, o ≠ .call (.rmdir path)

theorem KeepsDirs.refl (s : FileSys) : KeepsDirs s s := fun _ h => h

theorem KeepsDirs.trans {s1 s2 s3 : FileSys} (h : KeepsDirs s1 s2) (h' : KeepsDirs s2 s3) : KeepsDirs s1 s3 :=
  fun q hq => h' q (h q hq)

theorem Call.keepsDirs {c : Call} {s s' : FileSys} (h : c.sem s = .ok s') (hc : ∀ path, c ≠ .rmdir path) :
    KeepsDirs s s' := by
  intro q hq
  cases c with
  | openTrunc path =>
    obtain ⟨hd, hg⟩ := FileSys.creat_ok h
    rw [hg, if_neg (by rintro e; exact hd (e ▸ hq)), hq]
  | openAppend path =>
    simp only [Call.sem] at h
    split at h <;> cases h
    exact hq
  | unlink path =>
    obtain ⟨-, ⟨b, hb⟩, hg⟩ := FileSys.unlink_ok h
    rw [hg, if_neg (fun e => by rw [e, hb] at hq; cases hq), hq]
  | rename path path' =>
    obtain ⟨b, hb, hd, hg⟩ := FileSys.rename_ok h
    rw [hg, if_neg (by rintro e; exact hd (e ▸ hq)), if_neg (fun e => by rw [e, hb] at hq; cases hq), hq]
  | mkdir path =>
    obtain ⟨hn, hg⟩ := FileSys.mkdir_ok h
    rw [hg, if_neg (fun e => by rw [e, hn] at hq; cases hq), hq]
  | rmdir path => exact absurd rfl (hc path)

theorem step_keepsDirs {o : Op} (ho : SparesDirs o) (c : Choice) (s : FileSys) : KeepsDirs s (step o c s).2 := by
  cases o with
  | call cl =>
    change KeepsDirs s (stepCall cl c s).2
    unfold stepCall
    split
    · exact .refl s
    · split
      · exact .refl s
      · rename_i h
        exact Call.keepsDirs h fun path e => ho path (by rw [e])
  | write path bs =>
    have happ : ∀ bs, KeepsDirs s (s.append (resolve path) bs) := fun bs q hq => by
      by_cases e : q = (resolve path).path
      · rw [FileSys.append, ← e, hq]; exact hq
      · rw [FileSys.get_append_ne bs e, hq]
    change KeepsDirs s (stepWrite path bs c s).2
    cases c with
    | fail => exact .refl s
    | short n => exact happ _
    | ok => exact happ _
    | order ns => exact happ _
  | _ => exact .refl s

/-! ## Files that are not made -/

/-- The operation makes no file at a path in `T`, and changes none. -/
def Spares (T : Path → Prop) : Op → Prop
  | .call (.openTrunc path) => ¬ T (resolve path).path
  | .call (.rename _ path) => ¬ T (resolve path).path
  | .write path _ => ¬ T (resolve path).path
  | _ => True

theorem openAppend_sem {path : Bytes} {s s' : FileSys} (h : (Call.openAppend path).sem s = .ok s') : s' = s := by
  simp only [Call.sem] at h
  split at h <;> cases h
  rfl

theorem Call.spares {T : Path → Prop} {c : Call} {s s' : FileSys} {q : Path} {b : Bytes} (hc : Spares T (.call c))
    (hq : T q) (hs : c.sem s = .ok s') (h : s'.get q = some (.file b)) : s.get q = some (.file b) := by
  have hne : ∀ {path}, ¬ T (resolve path).path → q ≠ (resolve path).path := fun h e => h (e ▸ hq)
  cases c with
  | openTrunc path => rwa [(FileSys.creat_ok hs).2, if_neg (hne hc)] at h
  | openAppend path => exact openAppend_sem hs ▸ h
  | unlink path =>
    rw [(FileSys.unlink_ok hs).2.2] at h
    split at h
    · cases h
    · exact h
  | rename path path' =>
    obtain ⟨b', hb', -, hg⟩ := FileSys.rename_ok hs
    rw [hg, if_neg (hne hc)] at h
    split at h
    · cases h
    · exact h
  | mkdir path =>
    rw [(FileSys.mkdir_ok hs).2] at h
    split at h
    · cases h
    · exact h
  | rmdir path =>
    rw [(FileSys.rmdir_ok hs).2] at h
    split at h
    · cases h
    · exact h

/-- A file in `T` after the operation was there before it. -/
theorem step_spares {T : Path → Prop} {o : Op} {s : FileSys} {q : Path} {b : Bytes} (ho : Spares T o) (hq : T q)
    (c : Choice) (h : (step o c s).2.get q = some (.file b)) : s.get q = some (.file b) := by
  cases o with
  | call cl =>
    change (stepCall cl c s).2.get _ = _ at h
    unfold stepCall at h
    split at h
    · exact h
    split at h
    · exact h
    · rename_i hs
      exact Call.spares ho hq hs h
  | write path bs =>
    have happ : ∀ bs, (s.append (resolve path) bs).get q = s.get q := fun bs =>
      FileSys.get_append_ne bs fun e => ho (e ▸ hq)
    change (stepWrite path bs c s).2.get _ = _ at h
    unfold stepWrite at h
    split at h
    · exact h
    · rwa [happ] at h
    · rwa [happ] at h
  | _ => exact h

/-! ## Programs that only read -/

/-- The operations whose answer only depends on the files. -/
inductive Reads : Op → Prop
  | lstat (path : Bytes) : Reads (.lstat path)
  | openRead (path : Bytes) : Reads (.openRead path)

/-- The result of a program in a run without faults. -/
abbrev Sys.value {α : Type} (p : Sys α) (s : FileSys) : α := Prog.value (M := machine) .ok p s

theorem Reads.keep (o : Op) (h : Reads o) (s : FileSys) : (step o .ok s).2 = s := by
  cases h <;> rfl

theorem Sys.value_bind {α β : Type} {p : Sys α} (h : Uses Reads p) (f : α → Sys β) (s : FileSys) :
    Sys.value (p >>= f) s = Sys.value (f (Sys.value p s)) s :=
  Prog.value_bind (M := machine) Reads.keep h f s

/-- All runs without faults of a program that only reads are the same. -/
theorem Sys.exec_reads {α : Type} {p : Sys α} (h : Uses Reads p) {v : Env} (hv : v.faults = false)
    {σ : Nat → Choice} (hσ : ∀ n, v.Allows (σ n)) (s : FileSys) : p.exec σ s = (Sys.value p s, s) := by
  refine Prog.exec_reads (M := machine) (A := v.Allows) Reads.keep (fun o ho c hc s => ?_) h hσ s
  have hne : c ≠ .fail := by
    rintro rfl
    exact absurd (hv.symm.trans hc) (by decide)
  cases ho <;> simp [step, stepStat, hne]

end Lorica

import Lorica.Framework.Change
import Lorica.Impl.Herald.Transaction

/-!
# herald: making directories and copying files

What the file helpers of `transaction.c` change and when they succeed, for path
names that spell a path (`absStr`). `parentDirs_wp`: `parent_dirs` makes missing
directories above its path. `copyFile_wp`: `copy_file` pokes its destination,
which holds the source's contents if it succeeds.

In a run without faults of the environment (`v.faults = false`) both succeed where the
destination is clear.
-/

namespace Lorica.Proof.Herald

open Lorica.Impl.Herald Posix List

variable {v : Env} {s : FileSys} {p t : Path}

/-! ## Path names -/

theorem slashCuts_name (acc n bs : Bytes) (hn : slash ∉ n) : slashCuts acc (n ++ bs) = slashCuts (acc ++ n) bs := by
  induction n generalizing acc with
  | nil => simp
  | cons b n ih =>
    simp only [mem_cons, not_or] at hn
    rw [cons_append, slashCuts, if_neg (fun h => hn.1 h.1.symm), ih _ hn.2]
    simp

/-- The cuts of the rest of a path name, after the directory `q`. -/
theorem slashCuts_str (p q : Path) (hp : ValidPath p) (hne : p ≠ []) :
    slashCuts (absStr q ++ if q = [] then [] else [slash]) (str p) =
      (ancestors p).tail.map fun a => absStr (q ++ a) := by
  induction p generalizing q with
  | nil => exact absurd rfl hne
  | cons n p ih =>
    have hn := hp n mem_cons_self
    have hacc : (absStr q ++ if q = [] then [] else [slash]) ++ n = absStr (q ++ [n]) := by
      by_cases hq : q = []
      · subst hq; simp [absStr, str]
      · rw [absStr_append hq (by simp)]; simp [hq]
    by_cases hpe : p = []
    · subst hpe
      have := slashCuts_name (absStr q ++ if q = [] then [] else [slash]) n [] hn.no_slash
      simpa [ancestors, slashCuts] using this
    · rw [show n :: p = [n] ++ p from rfl, str_append (by simp) hpe, str_singleton,
        slashCuts_name _ _ _ hn.no_slash, hacc, slashCuts, if_pos ⟨rfl, by simp [absStr]⟩]
      have := ih (q ++ [n]) (fun m hm => hp m (mem_cons_of_mem _ hm)) hpe
      simp only [append_eq_nil_iff, cons_ne_self, and_false, ite_false] at this
      rw [this]
      obtain ⟨m, r, rfl⟩ := exists_cons_of_ne_nil hpe
      simp [ancestors]

/-- `mkdir_p` makes the directories above its path, from the root down, and the
path. -/
theorem slashCuts_absStr (hp : ValidPath p) (hne : p ≠ []) :
    slashCuts [] (absStr p) = (ancestors p).tail.map absStr := by
  have h := slashCuts_str p [] hp hne
  simp only [nil_append] at h
  rw [← h]
  simp [absStr, str, slashCuts]

theorem dirPart_absStr {n : Name} (hn : ValidName n) :
    dirPart (absStr (p ++ [n])) = if p = [] then [] else absStr p := by
  have key : ∀ d : Bytes, dirPart (d ++ slash :: n) = d := by
    intro d
    have h : ∀ b ∈ n.reverse, decide (b ≠ slash) = true := fun b hb => by
      simp only [decide_eq_true_eq]
      rintro rfl
      exact hn.no_slash (mem_reverse.mp hb)
    rw [dirPart, reverse_append, reverse_cons, append_assoc,
      dropWhile_append_of_pos h]
    simp
  by_cases hp : p = []
  · subst hp
    simpa [absStr] using key []
  · rw [if_neg hp, absStr_append hp (by simp), str_singleton, key]

theorem parentDirs_eq (hv : ValidPath p) (hne : p ≠ []) (hl : (absStr p).length < txnPathMax) :
    parentDirs (absStr p) = mkdirAll ((ancestors p).tail.map absStr) := by
  obtain ⟨q, n, rfl⟩ := eq_nil_or_concat' p |>.resolve_left hne
  rw [parentDirs, if_neg (by omega), dirPart_absStr (hv n (by simp)), ancestors_concat]
  by_cases hq : q = []
  · subst hq; simp [ancestors, mkdirAll]
  · have hle : (absStr q).length ≤ (absStr (q ++ [n])).length := by
      rw [absStr_append hq (by simp)]; simp
    have hmk : slashCuts [] (absStr q) ++ [absStr q] = (ancestors q ++ [q]).tail.map absStr := by
      obtain ⟨m, r, rfl⟩ := exists_cons_of_ne_nil hq
      rw [slashCuts_absStr hv.left hq]
      simp [ancestors]
    rw [if_neg hq, if_neg (by simp [absStr]), mkdirP, if_neg (by omega), hmk]

/-! ## Directories -/

/-- An operation that writes to no file. -/
def Quiet (o : Op) : Prop := ∀ path bs, o ≠ .write path bs

theorem Quiet.call (c : Call) : Quiet (.call c) := fun _ _ => nofun
theorem Quiet.lstat (path : Bytes) : Quiet (.lstat path) := fun _ _ => nofun
theorem Quiet.openRead (path : Bytes) : Quiet (.openRead path) := fun _ _ => nofun
theorem Quiet.readdir (path : Bytes) : Quiet (.readdir path) := fun _ _ => nofun
theorem Quiet.fsync (path : Bytes) : Quiet (.fsync path) := fun _ _ => nofun
theorem Quiet.close (path : Bytes) : Quiet (.close path) := fun _ _ => nofun
theorem Quiet.sync : Quiet .sync := fun _ _ => nofun

/-- An operation that, if it writes, writes the file `p`. -/
def WritesTo (p : Path) (o : Op) : Prop := ∀ path bs, o = .write path bs → path = absStr p

theorem Quiet.writesTo {o : Op} (h : Quiet o) : WritesTo p o := fun path bs e => absurd e (h path bs)

theorem WritesTo.write (bs : Bytes) : WritesTo p (.write (absStr p) bs) := fun _ _ e => by cases e; rfl

theorem mkdirAll_append (ds es : List Bytes) :
    mkdirAll (ds ++ es) = mkdirAll ds >>= fun ok => if ok = true then mkdirAll es else pure false := by
  induction ds with
  | nil => rfl
  | cons d ds ih =>
    simp only [cons_append, mkdirAll, ih, Prog.bind_assoc]
    refine congrArg _ (funext fun r => ?_)
    split <;> rfl

/-- One directory above `t`. -/
theorem mkdir_wp (hv : ValidPath p) (hne : p ≠ []) (ht : p ∈ ancestors t) : Sys.WP v (mkdirAll [absStr p]) s
      (fun ok s' => Makes t s s' ∧ (ok = true → s'.get p ≠ none) ∧
        (v.faults = false → (∀ q ∈ ancestors p, s.get q = some .dir) → ok = true))
      (fun o s' => Makes t s s' ∧ WritesTo t o) := by
  have hr := resolve_absStr hv hne
  refine Sys.WP.call ⟨Makes.refl t s, (Quiet.call _).writesTo⟩ (fun s' hs => ?_) fun e he => ?_
  · have hs : s.mkdir ⟨p, false⟩ = .ok s' := hr ▸ hs
    obtain ⟨hn, hg⟩ := FileSys.mkdir_ok hs
    refine ⟨fun q => ?_, fun _ => by simp [hg], fun _ _ => rfl⟩
    rw [hg]
    split
    · rename_i e; subst e; exact .inr ⟨ht, hn, rfl⟩
    · exact .inl rfl
  · by_cases hx : e = .EEXIST
    · subst hx
      rcases he with he | ⟨-, h⟩
      · have he : s.mkdir ⟨p, false⟩ = .error .EEXIST := hr ▸ he
        exact ⟨Makes.refl t s, fun _ => FileSys.get_of_mkdir_eexist he, fun _ _ => rfl⟩
      · cases h
    · have hpure : Sys.WP v (pure false : Sys Bool) s
          (fun ok s' => Makes t s s' ∧ (ok = true → s'.get p ≠ none) ∧
            (v.faults = false → (∀ q ∈ ancestors p, s.get q = some .dir) → ok = true))
          (fun o s' => Makes t s s' ∧ WritesTo t o) := by
        refine ⟨Makes.refl t s, by simp, fun hnf ha => ?_⟩
        rcases he with he | ⟨h, -⟩
        · have he : s.mkdir ⟨p, false⟩ = .error e := hr ▸ he
          rcases FileSys.mkdir_cases hv hne ha false with h | ⟨s', h⟩
          · rw [he] at h; cases h; exact absurd rfl hx
          · rw [he] at h; cases h
        · rw [hnf] at h; cases h
      cases e <;> first | exact hpure | exact absurd rfl hx

/-- Making the directories above `p`, by induction on `p` from the root down.
Without faults it succeeds if no file is in the way. -/
theorem mkdirAll_wp (hv : ValidPath p) (ht : p <+: t) : Sys.WP v (mkdirAll ((ancestors p).tail.map absStr)) s
      (fun ok s' => Makes t s s' ∧ (ok = true → Clear s p → ∀ q ∈ ancestors p, s'.get q = some .dir) ∧
        (v.faults = false → Clear s p → ok = true)) (fun o s' => Makes t s s' ∧ WritesTo t o) := by
  induction p using reverseRecOn generalizing s with
  | nil => exact ⟨Makes.refl t s, fun _ _ _ h => absurd h not_mem_nil, fun _ _ => rfl⟩
  | append_singleton p n ih =>
    have hpt : p <+: t := (prefix_append _ _).trans ht
    by_cases hp : p = []
    · subst hp
      refine ⟨Makes.refl t s, fun _ _ q hq => ?_, fun _ _ => rfl⟩
      have : q = [] := by simpa [ancestors] using hq
      rw [this]; exact s.get_root
    · have hanc : p ∈ ancestors t := by
        refine mem_ancestors.mpr ⟨hpt, fun e => ?_⟩
        have := ht.length_le
        simp only [e, length_append, length_singleton] at this
        omega
      rw [ancestors_concat, show (ancestors p ++ [p]).tail = (ancestors p).tail ++ [p] by
        obtain ⟨m, r, rfl⟩ := exists_cons_of_ne_nil hp; simp [ancestors],
        map_append, mkdirAll_append]
      refine WP.seq (ih hv.left hpt) (fun ok s1 h1 => ?_)
      obtain ⟨hm, hd, hok⟩ := h1
      cases ok with
      | false =>
        refine ⟨hm, by simp, fun hnf hc => ?_⟩
        exact hok hnf (hc.of_prefix (prefix_append _ _))
      | true =>
        refine WP.mono (mkdir_wp hv.left hp hanc) (fun ok s2 h2 => ?_) fun _ s2 h2 => ⟨hm.trans h2.1, h2.2⟩
        obtain ⟨hm2, hn, hok2⟩ := h2
        refine ⟨hm.trans hm2, ?_, ?_⟩
        · intro h hc q hq
          have hdirs := hd rfl (hc.of_prefix (prefix_append _ _))
          rcases mem_append.mp hq with hq | hq
          · rcases hm2 q with e | ⟨-, -, e⟩
            · rw [e, hdirs q hq]
            · exact e
          · -- the last one is there, and is no file
            obtain rfl : q = p := mem_singleton.mp hq
            obtain ⟨nd, hnd⟩ := Option.ne_none_iff_exists'.mp (hn h)
            cases nd with
            | dir => exact hnd
            | file b =>
              have := (hm.trans hm2).clear hc q (by rw [ancestors_concat]; simp) b
              exact absurd hnd this
        · intro hnf hc
          exact hok2 hnf (hd rfl (hc.of_prefix (prefix_append _ _)))

/-- `parent_dirs` makes directories above its path. -/
theorem parentDirs_wp (hv : ValidPath p) (hne : p ≠ []) (hl : (absStr p).length < txnPathMax) :
    Sys.WP v (parentDirs (absStr p)) s (fun ok s' => Makes p s s' ∧
        (ok = true → Clear s p → ∀ q ∈ ancestors p, s'.get q = some .dir) ∧
        (v.faults = false → Clear s p → ok = true)) (fun o s' => Makes p s s' ∧ WritesTo p o) := by
  rw [parentDirs_eq hv hne hl]
  exact mkdirAll_wp hv (prefix_refl p)

/-! ## Writing and copying -/

/-- `s'` is `s` with `p` a regular file. -/
def Writes (p : Path) (s s' : FileSys) : Prop := SameBut (· = p) s s' ∧ ∃ b, s'.get p = some (.file b)

theorem Writes.refl {b : Bytes} (h : s.get p = some (.file b)) : Writes p s s := ⟨SameBut.refl _ s, b, h⟩

theorem Writes.trans {s' s'' : FileSys} (h : Writes p s s') (h' : Writes p s' s'') : Writes p s s'' :=
  ⟨h.1.trans h'.1, h'.2⟩

theorem Writes.pokes {s' : FileSys} (h : Writes p s s') : Pokes p s s' :=
  h.1.pokes (by obtain ⟨b, hb⟩ := h.2; simp [hb])

theorem path_absStr {b : Bytes} (hv : ValidPath p) (h : s.get p = some (.file b)) : (resolve (absStr p)).path = p := by
  rw [resolve_absStr hv (FileSys.ne_nil_of_file h)]

theorem append_writes {b path : Bytes} (hp : (resolve path).path = p) (h : s.get p = some (.file b)) (bs : Bytes) :
    Writes p s (s.append (resolve path) bs) ∧ (s.append (resolve path) bs).get p = some (.file (b ++ bs)) := by
  have hg : ∀ q, (s.append (resolve path) bs).get q = if q = p then some (.file (b ++ bs)) else s.get q := by
    rw [← hp]; exact FileSys.get_append_file (hp ▸ h) bs
  have hp : (s.append (resolve path) bs).get p = some (.file (b ++ bs)) := by rw [hg, if_pos rfl]
  exact ⟨⟨fun q hq => by rw [hg, if_neg hq], _, hp⟩, hp⟩

/-- What is written and what is left to write make up the whole, through any
number of short writes. -/
theorem writeAll_wp {n : Nat} {b bs path : Bytes} (hp : (resolve path).path = p) (hn : bs.length ≤ n)
    (h : s.get p = some (.file b)) : Sys.WP v (writeAll path n bs) s
      (fun ok s' => Writes p s s' ∧ (ok = true → s'.get p = some (.file (b ++ bs))) ∧
        (v.faults = false → ok = true)) (fun o s' => Writes p s s' ∧ ∃ bs, o = .write path bs) := by
  induction n generalizing s b bs with
  | zero =>
    obtain rfl : bs = [] := length_eq_zero_iff.mp (by omega)
    exact ⟨.refl h, fun _ => by simpa using h, fun _ => rfl⟩
  | succ n ih =>
    rw [writeAll]
    split
    · rename_i hbs
      subst hbs
      exact ⟨.refl h, fun _ => by simpa using h, fun _ => rfl⟩
    · rename_i hbs
      refine Sys.WP.write ⟨.refl h, bs, rfl⟩ (fun w hw hpos _ => ?_) fun hf => ?_
      · have hw0 := hpos hbs
        obtain ⟨hwr, hp'⟩ := append_writes hp h (bs.take w)
        change Sys.WP v (if w = 0 then pure false else writeAll path n (bs.drop w)) _ _ _
        rw [if_neg (by omega)]
        refine WP.mono (ih (by rw [length_drop]; omega) hp')
          (fun ok s' ⟨hw', hok, hff⟩ => ⟨hwr.trans hw', fun e => ?_, hff⟩) fun o s' ⟨hw', ho⟩ => ⟨hwr.trans hw', ho⟩
        rw [hok e, append_assoc, take_append_drop]
      · refine ⟨.refl h, by simp, fun hnf => ?_⟩
        rw [hnf] at hf; cases hf

theorem copyLoop_wp {n : Nat} {b bs : Bytes} (hv : ValidPath p) (hn : bs.length ≤ n)
    (h : s.get p = some (.file b)) : Sys.WP v (copyLoop (absStr p) n bs) s
      (fun ok s' => Writes p s s' ∧ (ok = true → s'.get p = some (.file (b ++ bs))) ∧
        (v.faults = false → ok = true)) (fun o s' => Writes p s s' ∧ WritesTo p o) := by
  induction n generalizing s b bs with
  | zero =>
    obtain rfl : bs = [] := length_eq_zero_iff.mp (by omega)
    exact ⟨.refl h, fun _ => by simpa using h, fun _ => rfl⟩
  | succ n ih =>
    rw [copyLoop]
    split
    · rename_i hbs
      subst hbs
      exact ⟨.refl h, fun _ => by simpa using h, fun _ => rfl⟩
    · have hc : ∀ o, (∃ bs, o = .write (absStr p) bs) → WritesTo p o := by
        rintro o ⟨bs, rfl⟩
        exact .write bs
      refine WP.bind (writeAll_wp (path_absStr hv h) le_rfl h) (fun ok s1 ⟨hw, hok, hnf⟩ => ?_)
        fun o _ h => ⟨h.1, hc o h.2⟩
      cases ok with
      | false => exact ⟨hw, by simp, hnf⟩
      | true =>
        refine WP.mono (ih (by rw [length_drop]; omega) (hok rfl))
          (fun ok s' ⟨hw', hok', hnf'⟩ => ⟨hw.trans hw', fun e => ?_, hnf'⟩) fun o s' ⟨hw', ho⟩ => ⟨hw.trans hw', ho⟩
        rw [hok' e, append_assoc, take_append_drop]

theorem openTrunc_writes {s' : FileSys} (hv : ValidPath p) (hne : p ≠ [])
    (h : (Call.openTrunc (absStr p)).sem s = .ok s') : Writes p s s' ∧ s'.get p = some (.file []) := by
  have h : s.creat ⟨p, false⟩ = .ok s' := resolve_absStr hv hne ▸ h
  have hg := (FileSys.creat_ok h).2
  have hp : s'.get p = some (.file []) := by rw [hg]; exact if_pos rfl
  exact ⟨⟨fun q hq => by rw [hg]; exact if_neg hq, _, hp⟩, hp⟩

theorem unlink_sem {s' : FileSys} (hv : ValidPath p) (hne : p ≠ [])
    (h : (Call.unlink (absStr p)).sem s = .ok s') : SameBut (· = p) s s' ∧ s'.get p = none := by
  have h : s.unlink ⟨p, false⟩ = .ok s' := resolve_absStr hv hne ▸ h
  have hg := (FileSys.unlink_ok h).2.2
  exact ⟨fun q hq => by rw [hg]; exact if_neg hq, by rw [hg]; exact if_pos rfl⟩

/-- The part of `copy_file` after the source has been opened and the directories
are made. -/
theorem copyInto_wp {node : Node} (hv : ValidPath p) (hne : p ≠ []) :
    Sys.WP v (do
        match ← Sys.openTrunc (absStr p) with
        | .error _ => pure false
        | .ok () =>
          let rc ← copyData (absStr p) node
          let closed ← Sys.close (absStr p)
          pure (rc && closed)) s
      (fun ok s' => Pokes p s s' ∧
        (ok = true → ∃ b, node = .file b ∧ s'.get p = some (.file b)) ∧
        (v.faults = false → (∃ b, node = .file b) → (∀ q ∈ ancestors p, s.get q = some .dir) →
          s.get p ≠ some .dir → ok = true))
      (fun o s' => Pokes p s s' ∧ WritesTo p o) := by
  refine Sys.WP.call ⟨.refl p s, (Quiet.call _).writesTo⟩ (fun s1 h1 => ?_) fun e he => ?_
  · obtain ⟨hw, hp⟩ := openTrunc_writes hv hne h1
    have hrc : Sys.WP v (copyData (absStr p) node) s1
        (fun rc s' => Writes p s s' ∧
          (rc = true → ∃ b, node = .file b ∧ s'.get p = some (.file b)) ∧
          (v.faults = false → (∃ b, node = .file b) → rc = true))
        (fun o s' => Pokes p s s' ∧ WritesTo p o) := by
      cases node with
      | dir => exact ⟨hw, by simp, fun _ ⟨b, e⟩ => by cases e⟩
      | file data =>
        refine WP.bind (copyLoop_wp hv le_rfl hp) (fun ok s2 ⟨hw2, hok, hnf⟩ => ?_)
          fun o s' ⟨hw', ho⟩ => ⟨(hw.trans hw').pokes, ho⟩
        cases ok with
        | false => exact ⟨hw.trans hw2, by simp, fun h _ => hnf h⟩
        | true =>
          refine ⟨⟨(hw.trans hw2).pokes, (Quiet.fsync _).writesTo⟩, fun ch hch => ?_⟩
          refine ⟨hw.trans hw2, fun _ => ⟨data, rfl, hok rfl⟩, fun h _ => ?_⟩
          change decide (ch ≠ .fail) = true
          refine decide_eq_true fun e => ?_
          subst e
          exact Bool.false_ne_true (h.symm.trans hch)
    refine WP.seq hrc (fun rc s2 ⟨hw2, hok, hnf⟩ => ?_)
    refine Sys.WP.close ⟨hw2.pokes, (Quiet.close _).writesTo⟩ fun closed hc => ?_
    refine ⟨hw2.pokes, fun h => hok ?_, fun h hb _ _ => ?_⟩
    · exact (Bool.and_eq_true_iff.mp h).1
    · rw [hnf h hb]
      cases closed with
      | true => rfl
      | false => rw [hc rfl] at h; cases h
  · refine ⟨.refl p s, by simp, fun h _ ha hd => ?_⟩
    rcases he with he | ⟨hf, -⟩
    · have he : s.creat ⟨p, false⟩ = .error e := resolve_absStr hv hne ▸ he
      rw [FileSys.creat_eq hv hne ha hd] at he
      cases he
    · rw [h] at hf; cases hf

variable {src : Path}

theorem copyBody_wp (hsv : ValidPath src) (hsne : src ≠ []) (hv : ValidPath p) (hne : p ≠ [])
    (hl : (absStr p).length < txnPathMax) : Sys.WP v (copyBody (absStr src) (absStr p)) s
      (fun ok s' => Pokes p s s' ∧ (ok = true → ∃ b, s.get src = some (.file b) ∧ s'.get p = some (.file b)) ∧
        (v.faults = false → (∃ b, s.get src = some (.file b)) → Clear s p → s.get p ≠ some .dir → ok = true))
      (fun o s' => Pokes p s s' ∧ WritesTo p o) := by
  refine Sys.WP.openRead ⟨.refl p s, (Quiet.openRead _).writesTo⟩ fun r hr => ?_
  rw [resolve_absStr hsv hsne] at hr
  cases r with
  | error e =>
    refine ⟨.refl p s, by simp, fun h ⟨b, hb⟩ _ _ => ?_⟩
    rcases hr with hr | ⟨hf, -⟩
    · rw [FileSys.stat_file hb] at hr; cases hr
    · rw [h] at hf; cases hf
  | ok node =>
    have hnode : s.get src = some node := (FileSys.stat_ok (hr.resolve_right fun h => by cases h.2).symm).1
    refine WP.bind (parentDirs_wp hv hne hl) (fun ok s1 ⟨hm, hdirs, hnf⟩ => ?_)
      fun o s' ⟨hm, ho⟩ => ⟨hm.pokes, ho⟩
    cases ok with
    | false =>
      exact ⟨hm.pokes, by simp, fun h _ hc _ => hnf h hc⟩
    | true =>
      refine WP.mono (copyInto_wp hv hne) (fun ok s' ⟨hp, hok, hnf'⟩ => ⟨hm.pokes.trans hp, fun h => ?_, ?_⟩)
        fun o s' ⟨hp, ho⟩ => ⟨hm.pokes.trans hp, ho⟩
      · obtain ⟨b, rfl, hb⟩ := hok h
        exact ⟨b, hnode, hb⟩
      · intro h ⟨b, hb⟩ hc hd
        refine hnf' h ⟨b, ?_⟩ (hdirs rfl hc) (hm.get_self ▸ hd)
        rw [hnode] at hb; exact Option.some.inj hb

/-- `copy_file` pokes its destination. If it succeeds, the destination holds the
source's contents. -/
theorem copyFile_wp (hsv : ValidPath src) (hsne : src ≠ []) (hv : ValidPath p) (hne : p ≠ [])
    (hl : (absStr p).length < txnPathMax) : Sys.WP v (copyFile (absStr src) (absStr p)) s
      (fun ok s' => Pokes p s s' ∧ (ok = true → ∃ b, s.get src = some (.file b) ∧ s'.get p = some (.file b)) ∧
        (v.faults = false → (∃ b, s.get src = some (.file b)) → Clear s p → s.get p ≠ some .dir → ok = true))
      (fun o s' => Pokes p s s' ∧ WritesTo p o) := by
  refine WP.seq (copyBody_wp hsv hsne hv hne hl) (fun ok s1 ⟨hp, hok, hnf⟩ => ?_)
  cases ok with
  | true => exact ⟨hp, hok, fun _ _ _ _ => rfl⟩
  | false =>
    refine Sys.WP.call ⟨hp, (Quiet.call _).writesTo⟩ (fun s2 h2 => ?_) fun e _ => ?_
    · obtain ⟨hs, hn⟩ := unlink_sem hv hne h2
      exact ⟨hp.trans (hs.pokes (by simp [hn])), by simp, hnf⟩
    · exact ⟨hp, by simp, hnf⟩

/-- Without faults, a copy of a file that is not there leaves nothing. -/
theorem copyFile_missing_wp (hv : v.faults = false) (hsv : ValidPath src) (hsne : src ≠ []) (hpv : ValidPath p)
    (hne : p ≠ []) (hl : (absStr p).length < txnPathMax) (hsrc : s.data src = none) (hd : s.get p ≠ some .dir) :
    Sys.Ends v (copyFile (absStr src) (absStr p)) s (fun ok s' => ok = false ∧ s'.get p = none) := by
  refine WP.thenEnds (copyBody_wp hsv hsne hpv hne hl) fun ok s1 ⟨hp, hok, _⟩ => ?_
  cases ok with
  | true =>
    obtain ⟨b, hb, -⟩ := hok rfl
    rw [FileSys.data_eq_some.mpr hb] at hsrc
    cases hsrc
  | false =>
    refine Sys.WP.call trivial (fun s2 h2 => ⟨rfl, (unlink_sem hpv hne h2).2⟩) fun e he => ⟨rfl, ?_⟩
    rcases he with he | ⟨hf, -⟩
    · have he : s1.unlink ⟨p, false⟩ = .error e := resolve_absStr hpv hne ▸ he
      cases hg : s1.get p with
      | none => rfl
      | some n =>
        cases n with
        | dir => exact absurd (hp.self hg) hd
        | file b => rw [FileSys.unlink_file hg] at he; cases he
    · rw [hv] at hf; cases hf

/-- `unlink`, which need not find its file. Without faults it succeeds if there is
no directory and no file above. -/
theorem unlinkGone_wp (hv : ValidPath p) (hne : p ≠ []) : Sys.WP v (unlinkGone (absStr p)) s
      (fun ok s' => (ok = true → SameBut (· = p) s s' ∧ s'.get p = none) ∧ (ok = false → s' = s) ∧
        (v.faults = false → Clear s p → s.get p ≠ some .dir → ok = true)) (fun o s' => s' = s ∧ Quiet o) := by
  refine Sys.WP.call ⟨rfl, .call _⟩ (fun s1 h1 => ?_) fun e he => ?_
  · exact ⟨fun _ => unlink_sem hv hne h1, fun h => (Bool.false_ne_true h.symm).elim, fun _ _ _ => rfl⟩
  · refine ⟨fun h => ?_, fun _ => rfl, fun hnf hc hd => ?_⟩
    · have he' : e = .ENOENT := of_decide_eq_true h
      subst he'
      rcases he with he | ⟨-, h⟩
      · have he : s.unlink ⟨p, false⟩ = .error .ENOENT := resolve_absStr hv hne ▸ he
        exact ⟨.refl _ s, FileSys.get_of_unlink_enoent he⟩
      · cases h
    · rcases he with he | ⟨hf, -⟩
      · have he : s.unlink ⟨p, false⟩ = .error e := resolve_absStr hv hne ▸ he
        cases hg : s.get p with
        | none => rw [FileSys.unlink_none hg hc] at he; cases he; rfl
        | some n =>
          cases n with
          | dir => exact absurd hg hd
          | file b => rw [FileSys.unlink_file hg] at he; cases he
      · rw [hnf] at hf; cases hf

/-! ## Removing a tree -/

theorem absStr_child (hne : p ≠ []) (n : Name) : absStr p ++ slash :: n = absStr (p ++ [n]) := by
  rw [absStr_append hne (by simp), str_singleton]

theorem removeEntries_wp {rm : Bytes → Sys Bool} {ns : List Name} (hv : ValidPath p) (hne : p ≠ [])
    (hns : ∀ n ∈ ns, ValidName n) (hrm : ∀ n ∈ ns, ∀ s, Sys.WP v (rm (absStr (p ++ [n]))) s
      (fun ok s' => Prunes (p ++ [n]) s s' ∧ (ok = true → s'.get (p ++ [n]) = none))
      (fun o s' => Prunes (p ++ [n]) s s' ∧ Quiet o)) : Sys.WP v (removeEntries rm (absStr p) ns) s
      (fun ok s' => Prunes p s s' ∧ (ok = true → ∀ n ∈ ns, s'.get (p ++ [n]) = none))
      (fun o s' => Prunes p s s' ∧ Quiet o) := by
  induction ns generalizing s with
  | nil => exact ⟨.refl p s, fun _ _ h => absurd h not_mem_nil⟩
  | cons n ns ih =>
    have hn : ValidName n := hns n mem_cons_self
    have hcv : ValidPath (p ++ [n]) := hv.append fun m hm => mem_singleton.mp hm ▸ hn
    have hcr : resolve (absStr (p ++ [n])) = ⟨p ++ [n], false⟩ := resolve_absStr hcv (by simp)
    have hfail : ∀ s', Prunes p s s' → Sys.WP v (pure false : Sys Bool) s'
        (fun ok s' => Prunes p s s' ∧ (ok = true → ∀ m ∈ n :: ns, s'.get (p ++ [m]) = none))
        (fun o s' => Prunes p s s' ∧ Quiet o) := fun s' h => ⟨h, by simp⟩
    -- once the first entry is gone the loop goes on with the rest
    have hgo : ∀ s1, Prunes p s s1 → s1.get (p ++ [n]) = none →
        Sys.WP v (removeEntries rm (absStr p) ns) s1
          (fun ok s' => Prunes p s s' ∧ (ok = true → ∀ m ∈ n :: ns, s'.get (p ++ [m]) = none))
          (fun o s' => Prunes p s s' ∧ Quiet o) := by
      intro s1 h1 hgone
      refine WP.mono (ih (fun m hm => hns m (mem_cons_of_mem _ hm))
        fun m hm => hrm m (mem_cons_of_mem _ hm)) (fun ok s' ⟨h', hok⟩ => ⟨h1.trans h', fun e m hm => ?_⟩)
        fun o s' ⟨h', ho⟩ => ⟨h1.trans h', ho⟩
      rcases mem_cons.mp hm with rfl | hm
      · exact h'.get_none hgone
      · exact hok e m hm
    simp only [removeEntries, absStr_child hne]
    split
    · exact hfail s (.refl p s)
    refine Sys.WP.lstat ⟨.refl p s, .lstat _⟩ fun r hr => ?_
    rcases r with e | (b | _)
    · exact hfail s (.refl p s)
    · refine Sys.WP.call ⟨.refl p s, .call _⟩ (fun s1 h1 => ?_) fun e _ => hfail s (.refl p s)
      have hun : s.unlink ⟨p ++ [n], false⟩ = .ok s1 := hcr ▸ h1
      have hg := (FileSys.unlink_ok hun).2.2
      refine hgo s1 (fun q => ?_) (by rw [hg]; exact if_pos rfl)
      rw [hg]
      split
      · rename_i e; exact .inr ⟨e ▸ prefix_append _ _, rfl⟩
      · exact .inl rfl
    · refine WP.bind (hrm n mem_cons_self s) (fun ok s1 ⟨h1, hok⟩ => ?_)
        fun o s' ⟨h', ho⟩ => ⟨h'.mono (prefix_append _ _), ho⟩
      cases ok with
      | false => exact hfail s1 (h1.mono (prefix_append _ _))
      | true => exact hgo s1 (h1.mono (prefix_append _ _)) (hok rfl)

/-- `remove_tree` removes nothing but its tree, and all of it if it succeeds,
whatever the order in which the directories are listed. -/
theorem removeTree_wp {fuel : Nat} (hv : ValidPath p) (hne : p ≠ []) : Sys.WP v (removeTree fuel (absStr p)) s
      (fun ok s' => Prunes p s s' ∧ (ok = true → s'.get p = none)) (fun o s' => Prunes p s s' ∧ Quiet o) := by
  induction fuel generalizing s p with
  | zero => exact ⟨.refl p s, by simp⟩
  | succ fuel ih =>
    have hr : resolve (absStr p) = ⟨p, false⟩ := resolve_absStr hv hne
    refine Sys.WP.readdir ⟨.refl p s, .readdir _⟩ (fun ns _ hns => ?_) fun e he => ?_
    · have hvalid : ∀ n ∈ ns, ValidPath (p ++ [n]) := fun n hn => by
        rw [hr] at hns
        exact FileSys.get_valid (FileSys.mem_children.mp (hns.mem_iff.mp hn))
      refine WP.seq (removeEntries_wp hv hne (fun n hn => hvalid n hn n (by simp))
        fun n hn s => ih (hvalid n hn) (by simp)) (fun ok s1 ⟨h1, hok⟩ => ?_)
      cases ok with
      | false => exact ⟨h1, by simp⟩
      | true =>
        refine Sys.WP.call ⟨h1, .call _⟩ (fun s2 h2 => ?_) fun e he => ?_
        · have h2 : s1.rmdir ⟨p, false⟩ = .ok s2 := hr ▸ h2
          have hg := (FileSys.rmdir_ok h2).2
          refine ⟨h1.trans fun q => ?_, fun _ => by rw [hg]; exact if_pos rfl⟩
          rw [hg]
          split
          · rename_i e; exact .inr ⟨e ▸ prefix_refl _, rfl⟩
          · exact .inl rfl
        · refine ⟨h1, fun e' => ?_⟩
          have he' : e = .ENOENT := of_decide_eq_true e'
          subst he'
          rcases he with he | ⟨-, h⟩
          · have he : s1.rmdir ⟨p, false⟩ = .error .ENOENT := hr ▸ he
            exact FileSys.get_of_rmdir_enoent he
          · cases h
    · refine ⟨.refl p s, fun e' => ?_⟩
      have he' : e = .ENOENT := of_decide_eq_true e'
      subst he'
      rcases he with he | ⟨-, h⟩
      · have he : s.readdir ⟨p, false⟩ = .error .ENOENT := hr ▸ he
        exact FileSys.get_of_readdir_enoent he
      · cases h

/-- All names at and below `p` fit in the buffers of `remove_tree`. -/
def Fits (p : Path) (s : FileSys) : Prop := ∀ q, p <+: q → s.get q ≠ none → (absStr q).length < txnPathMax

instance (p : Path) (s : FileSys) : Decidable (Fits p s) :=
  decidable_of_iff (∀ q ∈ s.paths, p <+: q → (absStr q).length < txnPathMax)
    ⟨fun h q hq hn => h q (FileSys.mem_paths.2 hn) hq, fun h q hn hq => h q hq (FileSys.mem_paths.1 hn)⟩

theorem Fits.prunes {t : Path} (h : Fits p s) (hp : Prunes t s s') : Fits p s' := fun q hq hs =>
  h q hq fun hn => hs (hp.get_none hn)

theorem Fits.child {n : Name} (h : Fits p s) : Fits (p ++ [n]) s := fun q hq =>
  h q ((prefix_append _ _).trans hq)

theorem removeEntries_ok (rm : Bytes → Sys Bool) {ns : List Name} (hf : v.faults = false) (hv : ValidPath p)
    (hne : p ≠ []) (hns : ∀ n ∈ ns, ValidName n) (hnd : ns.Nodup)
    (hrm : ∀ n ∈ ns, ∀ s, Sys.Ends v (rm (absStr (p ++ [n]))) s
      (fun ok s' => Prunes (p ++ [n]) s s' ∧
        (Fits (p ++ [n]) s → s.get (p ++ [n]) = some .dir → ok = true))) (hfit : Fits p s)
          (hthere : ∀ n ∈ ns, s.get (p ++ [n]) ≠ none) :
    Sys.Ends v (removeEntries rm (absStr p) ns) s (fun ok _ => ok = true) := by
  induction ns generalizing s with
  | nil => exact rfl
  | cons n ns ih =>
    have hn : ValidName n := hns n mem_cons_self
    have hcv : ValidPath (p ++ [n]) := hv.append fun m hm => mem_singleton.mp hm ▸ hn
    have hcr : resolve (absStr (p ++ [n])) = ⟨p ++ [n], false⟩ := resolve_absStr hcv (by simp)
    have hhere := hthere n mem_cons_self
    rw [nodup_cons] at hnd
    -- the other entries stay while this one is removed
    have hgo : ∀ s1, Prunes (p ++ [n]) s s1 →
        Sys.Ends v (removeEntries rm (absStr p) ns) s1 (fun ok _ => ok = true) := fun s1 h1 => by
      refine ih (fun m hm => hns m (mem_cons_of_mem _ hm)) hnd.2 (fun m hm => hrm m (mem_cons_of_mem _ hm))
        (hfit.prunes h1) fun m hm => ?_
      have hmn : m ≠ n := by rintro rfl; exact hnd.1 hm
      rw [h1.get_eq fun hpre => hmn (by simpa using (hpre.eq_of_length (by simp)).symm)]
      exact hthere m (mem_cons_of_mem _ hm)
    simp only [removeEntries, absStr_child hne]
    rw [if_neg (not_le.mpr (hfit _ (prefix_append _ _) hhere))]
    refine Sys.WP.lstat trivial fun r hr => ?_
    have hr := hr.resolve_right (by simp [hf])
    rw [hcr] at hr
    obtain ⟨node, hnode⟩ := Option.ne_none_iff_exists'.mp hhere
    cases node with
    | file b =>
      rw [FileSys.stat_file hnode] at hr
      subst hr
      refine Sys.WP.call trivial (fun s1 h1 => hgo s1 fun q => ?_) fun e he => ?_
      · have h1 : s.unlink ⟨p ++ [n], false⟩ = .ok s1 := hcr ▸ h1
        rw [(FileSys.unlink_ok h1).2.2]
        split
        · rename_i e; exact .inr ⟨e ▸ prefix_refl _, rfl⟩
        · exact .inl rfl
      · have he : s.unlink ⟨p ++ [n], false⟩ = .error e := hcr ▸ he.resolve_right (by simp [hf])
        rw [FileSys.unlink_file hnode] at he
        cases he
    | dir =>
      rw [FileSys.stat_dir hnode] at hr
      subst hr
      refine WP.seq (hrm n mem_cons_self s) (fun ok s1 h1 => ?_)
      rw [h1.2 hfit.child hnode]
      exact hgo s1 h1.1

/-- Without faults `remove_tree` removes a tree whose names fit. -/
theorem removeTree_ok {fuel : Nat} (hf : v.faults = false) (hv : ValidPath p) (hne : p ≠ [])
    (hfuel : txnPathMax ≤ fuel + (absStr p).length) (hfit : Fits p s) (hd : s.get p = some .dir) :
    Sys.Ends v (removeTree fuel (absStr p)) s (fun ok _ => ok = true) := by
  induction fuel generalizing s p with
  | zero =>
    have := hfit p (prefix_refl _) (by simp [hd])
    omega
  | succ fuel ih =>
    have hr : resolve (absStr p) = ⟨p, false⟩ := resolve_absStr hv hne
    refine Sys.WP.readdir trivial (fun ns _ hns => ?_) fun e he => ?_
    · rw [hr] at hns
      have hthere : ∀ n ∈ ns, s.get (p ++ [n]) ≠ none := fun n hn => FileSys.mem_children.mp (hns.mem_iff.mp hn)
      have hvalid : ∀ n ∈ ns, ValidPath (p ++ [n]) := fun n hn => FileSys.get_valid (hthere n hn)
      have hname : ∀ n ∈ ns, ValidName n := fun n hn => hvalid n hn n (by simp)
      have hentries := removeEntries_ok (removeTree fuel) hf hv hne hname
        (hns.nodup_iff.mpr (FileSys.children_nodup s p)) (fun n hn s => ?_) hfit hthere
      · have hpruned : Sys.WP v (removeEntries (removeTree fuel) (absStr p) ns) s _ _ :=
          removeEntries_wp hv hne hname fun n hn s => removeTree_wp (hvalid n hn) (by simp)
        refine WP.bind (hentries.and hpruned) (fun ok s1 h1 => ?_) fun _ _ h => h.1
        obtain ⟨rfl, hp, hgone⟩ := h1
        have hc : s1.children p = [] := eq_nil_iff_forall_not_mem.mpr fun n hn => by
          have hn := FileSys.mem_children.mp hn
          by_cases hm : n ∈ ns
          · exact hn (hgone rfl n hm)
          · refine hn (hp.get_none (not_not.mp fun h => hm ?_))
            exact hns.mem_iff.mpr (FileSys.mem_children.mpr h)
        refine Sys.WP.call trivial (fun s2 _ => rfl) fun e he => ?_
        have he : s1.rmdir ⟨p, false⟩ = .error e := hr ▸ he.resolve_right (by simp [hf])
        rcases hp p with e' | ⟨-, hn⟩
        · rw [FileSys.rmdir_dir (e'.trans hd) hne hc] at he
          cases he
        · have hclear : Clear s1 p := fun a ha b hb => by
            rw [hp.get_eq fun hpa => (mem_ancestors.mp ha).2 ((mem_ancestors.mp ha).1.eq_of_length_le hpa.length_le),
              FileSys.get_ancestor hd ha] at hb
            cases hb
          rw [FileSys.rmdir, FileSys.stat_none hn hclear] at he
          cases he
          exact rfl
      · have hlen : (absStr (p ++ [n])).length = (absStr p).length + 1 + n.length := by
          rw [absStr_append hne (by simp), str_singleton]
          simp only [length_append, length_cons]
          omega
        by_cases h : Fits (p ++ [n]) s ∧ s.get (p ++ [n]) = some .dir
        · refine WP.ends ((removeTree_wp (hvalid n hn) (by simp)).and
            (ih (hvalid n hn) (by simp) (by omega) h.1 h.2)) fun ok s' h' => ?_
          exact ⟨h'.1.1, fun _ _ => h'.2⟩
        · refine WP.ends (removeTree_wp (hvalid n hn) (by simp)) fun ok s' h' => ?_
          exact ⟨h'.1, fun h1 h2 => absurd ⟨h1, h2⟩ h⟩
    · rw [hr, FileSys.readdir_dir hd] at he
      simp [hf] at he

end Lorica.Proof.Herald

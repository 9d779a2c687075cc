import Lorica.Framework.Fields
import Lorica.Impl.Stsh.Expand

/-!
# Assignments of stsh

The value of an assignment is expanded by `expand_one`, which splits what it finds at blanks and
joins the fields again, at most 16 of them (`expandOne_dollar`). So `X=$Y` copies the value of
`Y` just if that is what `join_take_fields_iff` calls neat: `assign_copies_iff`.
-/

namespace Lorica.Proof.Stsh

open Lorica.Impl.Stsh Lorica.Fields List

/-- What can be assigned to. -/
def IsName (nm : Bytes) : Prop := nm.head?.any beginsName = true ∧ ∀ c ∈ nm, isNameChar c = true

variable {w : World} {b : Fb} {sh : Sh} {x y v key value : Bytes}

/-! ## Variables -/

/-- A text that fits is copied into a slot whole. -/
theorem text_copy {s : Bytes} (hnul : (0 : UInt8) ∉ s) (hfits : s.length < slotSize) : (Slot.copy s).text = s := by
  show (cstr s).take (slotSize - 1) = s
  rw [cstr_of_not_mem hnul, take_of_length_le (Nat.le_sub_one_of_lt hfits)]

theorem find?_set_findIdx {α : Type} {p : α → Bool} {l : List α} {a : α} (ha : p a = true)
    (h : l.findIdx p < l.length) : (l.set (l.findIdx p) a).find? p = some a := by
  induction l with
  | nil => exact absurd h (Nat.not_lt_zero _)
  | cons b l ih =>
    cases hb : p b with
    | true => simp [findIdx_cons, hb, ha]
    | false =>
      rw [findIdx_cons, hb] at h ⊢
      have hlt : l.findIdx p < l.length := Nat.lt_of_succ_lt_succ h
      simp [hb, ih hlt]

theorem get_set {e : Env} (hkey : (0 : UInt8) ∉ key) (hvalue : (0 : UInt8) ∉ value)
    (hfits : key.length + 1 + value.length < slotSize) (hroom : (e.get key).isSome = true ∨ e.slots.length < envMax) :
    (e.set key value).get key = some value := by
  have htext : (Slot.copy (key ++ equals :: value)).text = key ++ equals :: value :=
    text_copy (by simp [hkey, hvalue, equals]) (by simp; omega)
  have hholds : Slot.holds key (Slot.copy (key ++ equals :: value)) = true := by simp [Slot.holds, htext]
  have hgot : (Slot.copy (key ++ equals :: value)).text.drop (key.length + 1) = value := by
    rw [htext, ← drop_drop, drop_left]
    rfl
  by_cases hlt : e.slots.findIdx (Slot.holds key) < e.slots.length
  · have hslots : (e.set key value).slots =
      e.slots.set (e.slots.findIdx (Slot.holds key)) (Slot.copy (key ++ equals :: value)) :=
      congrArg Env.slots (if_pos hlt)
    rw [Env.get, hslots, find?_set_findIdx hholds hlt, Option.map_some, hgot]
  · have hnone : e.slots.find? (Slot.holds key) = none := by
      rw [find?_eq_none]
      intro s hs h
      exact hlt (findIdx_lt_length_of_exists ⟨s, hs, h⟩)
    have hunset : (e.get key).isSome = false := by rw [Env.get, hnone]; rfl
    have hfree : e.slots.length < envMax := hroom.resolve_left (by simp [hunset])
    have hslots : (e.set key value).slots = e.slots ++ [Slot.copy (key ++ equals :: value)] :=
      congrArg Env.slots ((if_neg hlt).trans (dif_pos hfree))
    rw [Env.get, hslots, find?_append, hnone, Option.none_or, find?_singleton, if_pos hholds, Option.map_some,
      hgot]

/-- A value is a C string and fits into a slot. -/
theorem value_of_get {e : Env} (h : e.get key = some value) :
    (0 : UInt8) ∉ value ∧ key.length + 1 + value.length < slotSize := by
  obtain ⟨s, hs, rfl⟩ := Option.map_eq_some_iff.mp h
  have hholds := find?_some hs
  simp only [Slot.holds, Bool.and_eq_true] at hholds
  have hlen : key.length < s.text.length := by
    by_contra hle
    rw [getElem?_eq_none (Nat.le_of_not_lt hle)] at hholds
    exact absurd hholds.2 (by simp)
  refine ⟨fun h => s.no_nul (mem_of_mem_drop h), ?_⟩
  have hfits := s.fits
  rw [length_drop]
  omega

/-! ## The fields of a value -/

theorem fbArg_eq (arg : Option Bytes) (h : b.argv.length ≤ b.maxargc) :
    fbArg b arg = { b with argv := (b.argv ++ [arg]).take b.maxargc } := by
  unfold fbArg
  split
  · rename_i hlt
    rw [take_of_length_le (by simpa using hlt)]
  · have heq : b.argv.length = b.maxargc := by omega
    have htake : (b.argv ++ [arg]).take b.maxargc = b.argv := by rw [← heq, take_left]
    rw [htake]

/-- What `fb_finish` does where no patterns are expanded. -/
structure Finished (b b' : Fb) : Prop where
  argv : b'.argv = (b.argv ++ (close b.field).map some).take b.maxargc
  used : b'.used ≤ b.used + 1
  field : b'.field = []
  same : b'.maxargc = b.maxargc ∧ b'.arenacap = b.arenacap ∧ b'.noglob = b.noglob

theorem fbFinish_finished (hglob : b.noglob = true) (hargs : b.argv.length ≤ b.maxargc) :
    Finished b (fbFinish w b) := by
  by_cases hempty : b.field = []
  · rw [fbFinish, if_pos hempty]
    refine ⟨?_, Nat.le_succ _, hempty, rfl, rfl, rfl⟩
    rw [hempty]
    simp [close, take_of_length_le hargs]
  · have hclose : close b.field = [b.field] := if_neg (by simpa using hempty)
    have hpattern : (if !b.fquoted && !b.noglob && hasPattern b.field then w.glob b.field else
        []) = [] := by simp [hglob]
    rw [fbFinish, if_neg hempty]
    simp only [hpattern, if_true]
    split
    · rw [fbArg_eq (b := { b with used := b.used + 1 }) _ hargs]
      exact ⟨by rw [hclose]; rfl, Nat.le_refl _, rfl, rfl, rfl, rfl⟩
    · rw [fbArg_eq _ hargs]
      exact ⟨by rw [hclose]; rfl, Nat.le_succ _, rfl, rfl, rfl, rfl⟩

theorem take_take_append {α : Type} (n : Nat) (l r : List α) : (l.take n ++ r).take n = (l ++ r).take n := by
  rw [take_append, take_append, take_take, Nat.min_self, length_take]
  congr 2
  omega

/-- A value is split into its fields, behind those there are, as far as the vector takes them. -/
theorem argv_fbSplit (hglob : b.noglob = true) (hargs : b.argv.length ≤ b.maxargc) {within : Bool}
    (hwithin : within = true → b.field = []) (hroom : b.used + 2 * v.length + 2 ≤ b.arenacap) :
    (fbFinish w (fbSplit w within v b)).argv = (b.argv ++ (fieldsFrom isBlank b.field v).map some).take b.maxargc := by
  induction v generalizing b within with
  | nil => exact (fbFinish_finished hglob hargs).argv
  | cons c v ih =>
    rw [length_cons] at hroom
    cases hc : isBlank c with
    | true =>
      -- within a run of blanks there is no field to finish
      have hfinish : (if within then b else fbFinish w b) = fbFinish w b := by
        cases within with
        | true => rw [fbFinish, if_pos (hwithin rfl)]; rfl
        | false => rfl
      have hf : Finished b (fbFinish w b) := fbFinish_finished hglob hargs
      have hused := hf.used
      rw [fbSplit, if_pos hc, hfinish, ih (hf.same.2.2.trans hglob)
        (by rw [hf.argv, hf.same.1]; exact length_take_le _ _) (fun _ => hf.field) (by rw [hf.same.2.1]; omega)]
      rw [hf.argv, hf.field, hf.same.1, fieldsFrom, if_pos hc, map_append, ← append_assoc, take_take_append]
    | false =>
      have hput : fbPutc b c = { b with used := b.used + 1, field := b.field ++ [c] } := if_pos (by omega)
      rw [fbSplit, if_neg (by simp [hc]), hput, fieldsFrom, if_neg (by simp [hc])]
      apply ih (b := { b with used := b.used + 1, field := b.field ++ [c] }) hglob hargs
      · intro h
        exact Bool.noConfusion h
      · show b.used + 1 + 2 * v.length + 2 ≤ b.arenacap
        omega

/-! ## Names -/

theorem beginsName_iff {c : UInt8} : beginsName c = true ↔
    c.toNat = 95 ∨ (97 ≤ c.toNat ∧ c.toNat ≤ 122) ∨ (65 ≤ c.toNat ∧ c.toNat ≤ 90) := by
  simp only [beginsName, isAlpha, Bool.or_eq_true, Bool.and_eq_true, decide_eq_true_eq, ← UInt8.toNat_inj]
  exact Iff.rfl

theorem IsName.not_mem (h : IsName x) {c : UInt8} (hc : isNameChar c = false) : c ∉ x := by
  intro hmem
  have := h.2 c hmem
  rw [hc] at this
  exact Bool.noConfusion this

/-- A name behind a dollar is read whole, if it fits. -/
theorem dollarValue_name (one : Bytes → Sh → Bytes × Sh) (hy : IsName y) (hlen : y.length < 128) :
    dollarValue w one y sh = ⟨envOrParam y sh, [], sh⟩ := by
  obtain ⟨hfirst, hall⟩ := hy
  have htake : (y.takeWhile isNameChar).take 127 = y := by
    rw [takeWhile_eq_self_iff.mpr hall, take_of_length_le (by omega)]
  cases y with
  | nil => exact absurd hfirst (by simp)
  | cons c t =>
    have hbegins : beginsName c = true := hfirst
    have hne : ∀ d, beginsName d = false → c ≠ d :=
        fun d hd h => by rw [h, hd] at hbegins; exact Bool.noConfusion hbegins
    have hdigit : ¬ isDigit c = true := by
      rw [isDigit_iff]
      have := beginsName_iff.mp hbegins
      omega
    have hspecial : ¬ (c = byte '@' ∨ c = byte '*') := not_or.mpr ⟨hne _ (by decide), hne _ (by decide)⟩
    have hparen : c ≠ lparen := hne _ (by decide)
    rw [dollarValue, if_neg (hne _ (by decide)), if_neg (hne _ (by decide)),
      if_neg (hne _ (by decide)), if_neg hspecial,
      if_neg hdigit, if_neg (fun h => hparen h.1), if_neg hparen, if_neg (hne _ (by decide)), if_pos hbegins]
    simp only [htake, drop_length]

theorem length_kept_le (v : Bytes) : ([space].intercalate ((fields isBlank v).take 16)).length ≤ v.length := by
  have hall : ([space].intercalate (fields isBlank v)).length ≤ [].length + v.length := length_join_fieldsFrom_le
  rw [length_nil, Nat.zero_add] at hall
  exact (length_join_take_le 16 _).trans hall

/-- The value of a variable, split and joined. -/
theorem expandOne_dollar (hy : IsName y) (hlen : y.length < 128) (hv : sh.env.get y = some v) :
    expandOne w (dollar :: y) sh = ([space].intercalate ((fields isBlank v).take 16), sh) := by
  have hvlen : v.length < slotSize := by
    have := (value_of_get hv).2
    omega
  have hcut : v.take (lineSize - 1) = v := take_of_length_le (by simp only [slotSize, lineSize] at hvlen ⊢; omega)
  have hread : ∀ one, readDollar w one y sh = ⟨v, [], sh⟩ := by
    intro one
    rw [readDollar, dollarValue_name one hy hlen, envOrParam, hv]
    simp only [Option.getD_some, hcut]
  have hword : expandWord w (dollar :: y) oneFb sh = (fbFinish w (fbSplit w false v oneFb), sh) := by
    rw [expandWord, length_cons, expandFrom, if_neg (by decide), if_neg (by decide), if_pos rfl]
    simp only [hread]
    rfl
  have hargv : (fbFinish w (fbSplit w false v oneFb)).argv = ((fields isBlank v).map some).take 16 :=
    argv_fbSplit rfl (Nat.zero_le _) (fun h => Bool.noConfusion h)
      (by simp only [slotSize] at hvlen; show 0 + _ + 2 ≤ 4096; omega)
  have hargs : (((fields isBlank v).map some).take 16).map (·.getD []) = (fields isBlank v).take 16 := by
    rw [← map_take, map_map]
    exact map_id _
  have hjoin := length_kept_le v
  rw [expandOne, hword]
  show (([space].intercalate ((fbFinish w (fbSplit w false v oneFb)).argv.map (·.getD []))).take (lineSize - 1), sh) = _
  rw [hargv, hargs, take_of_length_le (by simp only [slotSize, lineSize] at hvlen ⊢; omega)]

/-- `X=$Y` is an assignment, and what `X` then holds is what is kept of the value of `Y`. -/
theorem get_assignments (hx : IsName x) (hy : IsName y) (hlen : y.length < 128) (hv : sh.env.get y = some v)
    (hfits : x.length + 1 + v.length < slotSize) (hroom : (sh.env.get x).isSome = true ∨ sh.env.slots.length < envMax) :
    (assignments w [x ++ equals :: dollar :: y] sh).2.env.get x =
      some ([space].intercalate ((fields isBlank v).take 16)) := by
  have hequals : isNameChar equals = false := by decide
  have hkey : (x ++ equals :: dollar :: y).takeWhile (· ≠ equals) = x :=
    takeWhile_ne_of_not_mem (hx.not_mem hequals) _
  have hisAssign : isAssignment (x ++ equals :: dollar :: y) = true := by
    have hhead : (x ++ equals :: dollar :: y).head?.any beginsName = true := by
      obtain ⟨c, t, rfl⟩ := exists_cons_of_ne_nil (l := x) fun h => by simpa [h] using hx.1
      exact hx.1
    rw [isAssignment, hhead, dropWhile_append_of_pos hx.2]
    rfl
  have hnul : (0 : UInt8) ∉ [space].intercalate ((fields isBlank v).take 16) := by
    intro h
    rcases mem_join h with h | ⟨f, hf, h⟩
    · exact absurd h (by decide)
    · exact (value_of_get hv).1 (mem_fieldsFrom (mem_of_mem_take hf) h)
  have hkept := length_kept_le v
  have hdrop : (x ++ equals :: dollar :: y).drop (x.length + 1) = dollar :: y := by
    rw [← drop_drop, drop_left]
    rfl
  rw [assignments, if_pos hisAssign]
  show ((expandOne w _ sh).2.env.set _ (expandOne w _ sh).1).get x = _
  rw [hkey, hdrop, expandOne_dollar hy hlen hv]
  apply get_set (hx.not_mem (by decide)) hnul ?_ hroom
  show x.length + 1 + ([space].intercalate ((fields isBlank v).take 16)).length < slotSize
  omega

/-- What `X=$Y` copies: a value with nothing to collapse, to trim or to drop. -/
theorem assign_copies_iff (w : World) (hx : IsName x) (hy : IsName y)
    (hlen : y.length < 128) (hv : sh.env.get y = some v)
    (hfits : x.length + 1 + v.length < slotSize) (hroom : (sh.env.get x).isSome = true ∨ sh.env.slots.length < envMax) :
    (assignments w [x ++ equals :: dollar :: y] sh).2.env.get x = some v ↔ Neat isBlank space 16 v := by
  rw [get_assignments hx hy hlen hv hfits hroom, Option.some_inj]
  exact join_take_fields_iff (by decide) (by decide)

/-- A shell in which `Y` is set to a text. -/
def shellWith (text : Bytes) : Sh := ⟨Env.init [ascii "Y=" ++ text], [], ascii "stsh", 0⟩

theorem assign_copies_one_blank :
    (assignments ⟨1, fun _ => [], fun _ _ => []⟩ [ascii "X=$Y"] (shellWith (ascii "a b"))).2.env.get (ascii "X") =
      some (ascii "a b") :=
  (assign_copies_iff (x := ascii "X") (y := ascii "Y") _ ⟨by decide +kernel, by decide +kernel⟩
    ⟨by decide +kernel, by decide +kernel⟩ (by decide +kernel) (by decide +kernel)
      (by decide +kernel) (.inr (by decide +kernel))).mpr
    ⟨by decide +kernel, by decide, by decide, by decide +kernel, by decide⟩

/-- Two blanks become one. -/
theorem assign_collapses_blanks :
    (assignments ⟨1, fun _ => [], fun _ _ => []⟩ [ascii "X=$Y"] (shellWith (ascii "a  b"))).2.env.get (ascii "X") =
      some (ascii "a b") := by
  decide

end Lorica.Proof.Stsh

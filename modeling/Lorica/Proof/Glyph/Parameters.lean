import Lorica.Framework.Fields
import Lorica.Proof.Glyph.Cells

/-!
# The parameters of control sequences

The parser counts the parameters of a control sequence as it meets digits and separators, and a
separator does not count a first parameter without digits. The parameters reach `term_csi` as they
were sent, however the bytes are split over calls, just if the first one is not empty:
`csi_parameters_arrive_iff`.
-/

namespace Lorica.Proof.Glyph.Csi

open Lorica.Impl.Glyph List

/-- A parameter: nothing, or a number that fits an `int`. -/
structure Parameter where
  digits : Bytes
  digit : ∀ b ∈ digits, isDigit b = true
  fits : digitsValue digits < 2 ^ 31

def Parameter.value (p : Parameter) : Int := digitsValue p.digits

/-- A control sequence up to its final byte. -/
def sent (ps : List Parameter) : Bytes := 0x1B :: 91 :: [59].intercalate (ps.map (·.digits))

/-- The terminal after some calls of `glyph_term_feed` and a part of the bytes of another one. -/
def reach (t : Term) (calls : List Bytes) (part : Bytes) : Term :=
  part.foldl feedByte (snap (calls.foldl (fun t data => termCall t (.feed data)) t))

/-- A final byte calls `term_csi` with these parameters. -/
structure Dispatches (t : Term) (values : List Int) : Prop where
  final : ∀ ch : UInt8, 0x40 ≤ ch → ch ≤ 0x7E →
    feedByte t ch = { termCsi t ch with escState := .normal, escPrivate := false }
  count : t.escNparam = values.length
  params : t.escParams.take t.escNparam = values

/-- The parameters reach `term_csi` as they were sent, from every terminal outside of a sequence and
however the bytes are split over calls. -/
def Arrive (ps : List Parameter) : Prop :=
  ∀ (t : Term) (calls : List Bytes) (part : Bytes), t.escState = .normal → t.escParams.length = 8 →
    calls.flatten ++ part = sent ps → Dispatches (reach t calls part) (ps.map Parameter.value)

/-! ## What the parser has of the bytes -/

/-- The parameters, with one more byte. -/
def next (vs : List Int) (b : UInt8) : List Int :=
  if b = 59 then if vs.length < 8 then vs ++ [0] else vs
  else vs.dropLast ++ [wrap32 (vs.getLastD 0 * 10 + (b.toNat - 48))]

/-- The parser is among the parameters, and has read these. -/
structure Reading (vs : List Int) (t : Term) : Prop where
  csi : t.escState = .csi
  size : t.escParams.length = 8
  count : t.escNparam = vs.length
  params : vs <+: t.escParams
  zero : t.escParams.head? = some 0 ∨ vs ≠ []

/-- The parser has read a part of a sequence. -/
def Parsed : Bytes → Term → Prop
  | [], t => t.escState = .normal ∧ t.escParams.length = 8
  | [_], t => t.escState = .esc ∧ t.escParams.length = 8
  | _ :: _ :: w, t => Reading (w.foldl next []) t

variable {vs us : List Int} {t : Term} {b : UInt8} {w ds : Bytes} {p : Parameter} {ps : List Parameter}

theorem feedByte_csi (h : t.escState = .csi) (b : UInt8) : feedByte t b = csiByte t b := by
  rw [feedByte, h]

theorem Reading.separator (h : Reading vs t) : Reading (next vs 59) (feedByte t 59) := by
  obtain ⟨rest, hrest⟩ := h.params
  have hlen : vs.length + rest.length = 8 := by rw [← length_append, hrest, h.size]
  rw [feedByte_csi h.csi, csiByte, if_neg fun hmark => absurd hmark.1 (by decide),
    if_neg (by decide), next, if_pos rfl, h.count]
  split
  · obtain ⟨r, rest, rfl⟩ := exists_cons_of_ne_nil (l := rest) (by rintro rfl; simp at hlen; omega)
    refine ⟨h.csi, by simpa using h.size, by simp, ⟨rest, ?_⟩, .inr (by simp)⟩
    show vs ++ [0] ++ rest = t.escParams.set vs.length 0
    rw [← hrest]
    simp
  · exact h

/-- A digit goes to the last parameter, and to the first if there is none yet. -/
theorem Reading.digit (h : Reading vs t) (hb : isDigit b = true) : Reading (next vs b) (feedByte t b) := by
  obtain ⟨rest, hrest⟩ := h.params
  have hsep : b ≠ 59 := by rintro rfl; simp [isDigit] at hb
  have hmark : b ≠ 63 := by rintro rfl; simp [isDigit] at hb
  rw [feedByte_csi h.csi, csiByte, if_neg fun h => hmark h.1, if_pos hb, next, if_neg hsep, h.count]
  rcases eq_nil_or_concat vs with rfl | ⟨us, u, rfl⟩
  · have hzero := h.zero.resolve_right (by simp)
    obtain ⟨r, rest, rfl⟩ := exists_cons_of_ne_nil (l := rest) (by rintro rfl; simp [← hrest] at hzero)
    have hr : r = 0 := by simpa [← hrest] using hzero
    refine ⟨h.csi, by simpa using h.size, rfl, ⟨rest, ?_⟩, .inr (by simp)⟩
    show _ = t.escParams.set _ _
    simp [← hrest, hr]
  · refine ⟨h.csi, by simpa using h.size, by simp, ⟨rest, ?_⟩, .inr (by simp)⟩
    show _ = t.escParams.set _ _
    simp [← hrest]

theorem Parsed.snap (h : Parsed w t) : Parsed w (snap t) := by
  unfold Impl.Glyph.snap
  split
  · rcases w with - | ⟨x, - | ⟨y, w⟩⟩
    · exact h
    · exact h
    · exact ⟨h.csi, h.size, h.count, h.params, h.zero⟩
  · exact h

theorem mem_parameters (h : b ∈ [59].intercalate (ps.map (·.digits))) : isDigit b = true ∨ b = 59 := by
  rcases Fields.mem_join h with rfl | ⟨f, hf, hb⟩
  · exact .inr rfl
  · obtain ⟨p, -, rfl⟩ := mem_map.mp hf
    exact .inl (p.digit b hb)

theorem Parsed.byte {r : Bytes} (h : Parsed w t) (hsent : w ++ b :: r = sent ps) :
    Parsed (w ++ [b]) (feedByte t b) := by
  rcases w with - | ⟨x, - | ⟨y, w⟩⟩
  · obtain ⟨rfl, -⟩ := cons.inj hsent
    rw [feedByte, h.1]
    exact ⟨rfl, h.2⟩
  · obtain ⟨rfl, -⟩ := cons.inj (cons.inj hsent).2
    rw [feedByte, h.1]
    have hsize : ((t.escParams.set 0 0).set 1 0).length = 8 := by simpa using h.2
    refine ⟨rfl, hsize, rfl, nil_prefix, .inl ?_⟩
    obtain ⟨p, rest, hp⟩ := exists_cons_of_ne_nil (l := t.escParams) (by rintro hnil; rw [hnil] at hsize; simp at hsize)
    show ((t.escParams.set 0 0).set 1 0).head? = some 0
    simp [hp]
  · have hmem : b ∈ [59].intercalate (ps.map (·.digits)) := by
      rw [← (cons.inj (cons.inj hsent).2).2]
      simp
    show Reading ((w ++ [b]).foldl next []) (feedByte t b)
    rw [foldl_append]
    rcases mem_parameters hmem with hb | rfl
    · exact h.digit hb
    · exact h.separator

theorem Parsed.bytes {d r : Bytes} (h : Parsed w t) (hsent : w ++ d ++ r = sent ps) :
    Parsed (w ++ d) (d.foldl feedByte t) := by
  induction d generalizing w t with
  | nil => simpa using h
  | cons b d ih =>
    have hbyte := h.byte (b := b) (r := d ++ r) (by simpa using hsent)
    simpa using ih hbyte (by simpa using hsent)

theorem Parsed.calls {c : List Bytes} {r : Bytes} (h : Parsed w t) (hsent : w ++ c.flatten ++ r = sent ps) :
    Parsed (w ++ c.flatten) (c.foldl (fun t data => termCall t (.feed data)) t) := by
  induction c generalizing w t with
  | nil => simpa using h
  | cons d c ih =>
    have hcall : Parsed (w ++ d) (termCall t (.feed d)) :=
      h.snap.bytes (r := c.flatten ++ r) (by simpa using hsent)
    simpa using ih hcall (by simpa using hsent)

/-- However the bytes are split, the parser has read them. -/
theorem reading_reach {calls : List Bytes} {part : Bytes} (ht : t.escState = .normal) (hsize : t.escParams.length = 8)
    (hsent : calls.flatten ++ part = sent ps) :
    Reading (([59].intercalate (ps.map (·.digits))).foldl next []) (reach t calls part) := by
  have hcalls : Parsed calls.flatten _ := Parsed.calls (w := []) (t := t) (c := calls) (r := part) ⟨ht, hsize⟩ hsent
  have hpart := hcalls.snap.bytes (d := part) (r := []) (by simpa using hsent)
  rw [hsent] at hpart
  exact hpart

/-! ## Numbers -/

theorem le_digits (n : Nat) (ds : Bytes) : n ≤ ds.foldl (fun v b => 10 * v + (b.toNat - 48)) n := by
  induction ds generalizing n with
  | nil => exact le_rfl
  | cons b ds ih => exact (by omega : n ≤ 10 * n + (b.toNat - 48)).trans (ih _)

/-- The digits of a number that fits are added up. -/
theorem next_digits {n : Nat} (hd : ∀ b ∈ ds, isDigit b = true)
    (hfits : ds.foldl (fun v b => 10 * v + (b.toNat - 48)) n < 2 ^ 31) :
    ds.foldl next (us ++ [(n : Int)]) = us ++ [((ds.foldl (fun v b => 10 * v + (b.toNat - 48)) n : Nat) : Int)] := by
  induction ds generalizing n with
  | nil => rfl
  | cons b ds ih =>
    have hb := isDigit_iff.mp (hd b mem_cons_self)
    have hsep : b ≠ 59 := by rintro rfl; simp at hb
    have hle := le_digits (10 * n + (b.toNat - 48)) ds
    have hstep : next (us ++ [(n : Int)]) b = us ++ [((10 * n + (b.toNat - 48) : Nat) : Int)] := by
      rw [next, if_neg hsep, dropLast_concat, getLastD_concat]
      rw [foldl_cons] at hfits
      rw [wrap32_of_mem (by omega) (by omega)]
      congr 2
      omega
    rw [foldl_cons, hstep]
    exact ih (fun c hc => hd c (mem_cons_of_mem b hc)) hfits

theorem next_rest (h : vs.length + ps.length ≤ 8) :
    (ps.flatMap fun p => 59 :: p.digits).foldl next vs = vs ++ ps.map Parameter.value := by
  induction ps generalizing vs with
  | nil => simp
  | cons p ps ih =>
    rw [length_cons] at h
    rw [flatMap_cons, cons_append, foldl_cons, foldl_append, next, if_pos rfl, if_pos (by omega)]
    rw [show (0 : Int) = (0 : Nat) from rfl, next_digits p.digit p.fits, ih (by simp; omega)]
    simp [Parameter.value, digitsValue]

theorem next_first (p : Parameter) (hne : p.digits ≠ []) : p.digits.foldl next [] = [p.value] := by
  obtain ⟨b, ds, hp⟩ := exists_cons_of_ne_nil hne
  have hb := isDigit_iff.mp (p.digit b (by simp [hp]))
  have hsep : b ≠ 59 := by rintro rfl; simp at hb
  have hfits := p.fits
  have hstep : next [] b = [] ++ [((10 * 0 + (b.toNat - 48) : Nat) : Int)] := by
    rw [next, if_neg hsep, wrap32_of_mem (by simp; omega) (by simp; omega)]
    simp
    omega
  rw [Parameter.value, hp, foldl_cons, hstep]
  rw [hp] at hfits
  exact next_digits (fun c hc => p.digit c (by simp [hp, hc])) hfits

theorem join_eq (p : Parameter) (ps : List Parameter) :
    [59].intercalate ((p :: ps).map (·.digits)) = p.digits ++ ps.flatMap fun p => 59 :: p.digits := by
  induction ps generalizing p with
  | nil => exact Fields.join_singleton.trans (append_nil _).symm
  | cons q ps ih => rw [map_cons, Fields.join_cons (by simp), ih, flatMap_cons, cons_append]

/-- An empty first parameter is not counted. -/
theorem next_empty (hp : p.digits = []) (hlen : (p :: ps).length ≤ 8) :
    ([59].intercalate ((p :: ps).map (·.digits))).foldl next [] = ps.map Parameter.value := by
  rw [length_cons] at hlen
  rw [join_eq, hp, nil_append, next_rest (by simp; omega), nil_append]

theorem next_all (hhead : ps.head?.map (·.digits) ≠ some []) (hlen : ps.length ≤ 8) :
    ([59].intercalate (ps.map (·.digits))).foldl next [] = ps.map Parameter.value := by
  cases ps with
  | nil => rfl
  | cons p ps =>
    rw [join_eq, foldl_append, next_first p (by simpa using hhead), next_rest (by simpa [Nat.add_comm] using hlen)]
    rfl

theorem Reading.dispatches (h : Reading vs t) : Dispatches t vs := by
  refine ⟨fun ch hl hu => ?_, h.count, ?_⟩
  · have hl : 64 ≤ ch.toNat := hl
    have hdigit : isDigit ch = false := by rw [Bool.eq_false_iff, Ne, isDigit_iff]; omega
    have hsep : ch ≠ 59 := by rintro rfl; simp at hl
    have hmark : ch ≠ 63 := by rintro rfl; simp at hl
    rw [feedByte_csi h.csi, csiByte, if_neg fun h => hmark h.1, if_neg (by simp [hdigit]), if_neg hsep, if_pos ⟨hl, hu⟩]
  · rw [h.count]
    exact (prefix_iff_eq_take.mp h.params).symm

/-- When parameters reach `term_csi` as they were sent. -/
theorem csi_parameters_arrive_iff (ps : List Parameter) (hlen : ps.length ≤ 8) :
    Arrive ps ↔ ps.head?.map (·.digits) ≠ some [] := by
  constructor
  · intro harrive hhead
    obtain ⟨t, ht, hsize⟩ : ∃ t : Term, t.escState = .normal ∧ t.escParams.length = 8 :=
      ⟨(glyphTermCreate (small 1) (small 1) (small 8) (small 16) (small 0) (small 0) true).get rfl, rfl, rfl⟩
    cases ps with
    | nil => simp at hhead
    | cons p ps =>
      have hsent : ([] : List Bytes).flatten ++ sent (p :: ps) = sent (p :: ps) := rfl
      have hreading := reading_reach ht hsize hsent
      rw [next_empty (by simpa using hhead) hlen] at hreading
      have hcount := hreading.count.symm.trans (harrive t [] _ ht hsize rfl).count
      simp at hcount
  · intro hhead t calls part ht hsize hsent
    have hreading := reading_reach ht hsize hsent
    rw [next_all hhead hlen] at hreading
    exact hreading.dispatches

/-- `3;;12` -/
def gap : List Parameter :=
  [⟨[51], by simp [isDigit], by simp [digitsValue]⟩, ⟨[], by simp [isDigit], by simp [digitsValue]⟩,
    ⟨[49, 50], by simp [isDigit], by simp [digitsValue]⟩]

theorem csi_parameters_arrive_gap : gap.map Parameter.value = [3, 0, 12] ∧ Arrive gap :=
  ⟨rfl, (csi_parameters_arrive_iff gap (by decide)).mpr (by decide)⟩

/-- `;5` -/
def column : List Parameter :=
    [⟨[], by simp [isDigit], by simp [digitsValue]⟩, ⟨[53], by simp [isDigit], by simp [digitsValue]⟩]

/-- `ESC [ ; 5 H` goes to the fifth row and not to the fifth column. -/
theorem csi_first_empty_moves :
    ∃ t, glyphTermCreate (small 80) (small 25) (small 8) (small 16) (small 0) (small 0) true = some t ∧
    ¬ Dispatches (reach t [] (sent column)) (column.map Parameter.value) ∧
    (feedByte (reach t [] (sent column)) 72).cy = 4 ∧ (feedByte (reach t [] (sent column)) 72).cx = 0 := by
  refine ⟨_, rfl, fun h => ?_, rfl, rfl⟩
  exact absurd h.count (by decide)

end Lorica.Proof.Glyph.Csi

import Lorica.Framework.CString

/-!
# Decimal numbers

`%d` of `printf`, and `atoi`. An `int` has 32 bits, and `atoi` of a number that does not fit is
what its low bits are. `atoi_decimalInt` reads a printed number back; `atoi_append` says that
what follows a number does not change it.
-/

namespace Lorica

open List

/-- An `int`, from any integer. -/
def wrap32 (i : Int) : Int := i.bmod (2 ^ 32)

def digit (d : Nat) : UInt8 := UInt8.ofNat (48 + d)

def decimal (n : Nat) : Bytes := if n = 0 then [48] else (Nat.digits 10 n).reverse.map digit

/-- `%d`. -/
def decimalInt (i : Int) : Bytes := if i < 0 then 45 :: decimal i.natAbs else decimal i.natAbs

def digitsValue (bs : Bytes) : Nat := bs.foldl (fun v b => 10 * v + (b.toNat - 48)) 0

/-- A number with or without a sign. -/
def signedValue : Bytes → Int
  | [] => 0
  | b :: bs =>
    if b = 45 then -(digitsValue (bs.takeWhile isDigit) : Int)
    else if b = 43 then digitsValue (bs.takeWhile isDigit)
    else digitsValue ((b :: bs).takeWhile isDigit)

def atoi (bs : Bytes) : Int := wrap32 (signedValue (bs.dropWhile isSpace))

/-! ## Printed numbers are read back -/

theorem wrap32_range (i : Int) : -2 ^ 31 ≤ wrap32 i ∧ wrap32 i < 2 ^ 31 := by
  have hl := Int.le_bmod (x := i) (m := 2 ^ 32) (by decide)
  have hu := Int.bmod_lt (x := i) (m := 2 ^ 32) (by decide)
  rw [wrap32]
  omega

variable {i : Int} {b : UInt8}

theorem wrap32_of_mem (hl : -2 ^ 31 ≤ i) (hu : i < 2 ^ 31) : wrap32 i = i := by
  rw [wrap32, Int.bmod_eq_of_le] <;> omega

theorem toNat_digit {d : Nat} (h : d < 10) : (digit d).toNat = 48 + d := by
  rw [digit, UInt8.toNat_ofNat', Nat.mod_eq_of_lt (by omega)]

theorem isDigit_digit {d : Nat} (h : d < 10) : isDigit (digit d) = true := by
  have := toNat_digit h
  simp only [isDigit, Bool.and_eq_true, decide_eq_true_eq, UInt8.le_iff_toNat_le, this]
  exact ⟨Nat.le_add_right 48 d, by show 48 + d ≤ 57; omega⟩

theorem isDigit_decimal (n : Nat) : ∀ b ∈ decimal n, isDigit b = true := by
  intro b hb
  rw [decimal] at hb
  split at hb
  · obtain rfl := mem_singleton.1 hb
    rfl
  · obtain ⟨d, hd, rfl⟩ := mem_map.1 hb
    exact isDigit_digit (Nat.digits_lt_base (by decide) (mem_reverse.1 hd))

theorem decimal_ne_nil (n : Nat) : decimal n ≠ [] := by
  rw [decimal]
  split
  · simp
  · rename_i h
    simp [Nat.digits_eq_nil_iff_eq_zero, h]

theorem digitsValue_decimal (n : Nat) : digitsValue (decimal n) = n := by
  by_cases h : n = 0
  · subst h; rfl
  have hd (ds : List Nat) (hds : ∀ d ∈ ds, d < 10) :
      ds.foldr (fun d v => 10 * v + ((digit d).toNat - 48)) 0 = Nat.ofDigits 10 ds := by
    induction ds with
    | nil => rfl
    | cons d ds ih =>
      rw [foldr_cons, ih fun e he => hds e (mem_cons_of_mem _ he), Nat.ofDigits_cons,
        toNat_digit (hds d mem_cons_self)]
      omega
  rw [decimal, if_neg h, digitsValue, foldl_map, foldl_reverse,
    hd _ fun d hd => Nat.digits_lt_base (by decide) hd, Nat.ofDigits_digits]

theorem length_decimal_le {n k : Nat} (h : n < 10 ^ (k + 1)) : (decimal n).length ≤ k + 1 := by
  rw [decimal]
  split
  · simp
  · rw [length_map, length_reverse]
    exact (Nat.digits_length_le_iff (by decide) n).2 h

theorem isDigit_iff : isDigit b = true ↔ 48 ≤ b.toNat ∧ b.toNat ≤ 57 := by
  simp only [isDigit, Bool.and_eq_true, decide_eq_true_eq]
  exact Iff.rfl

theorem isSpace_iff : isSpace b = true ↔ b.toNat = 32 ∨ 9 ≤ b.toNat ∧ b.toNat ≤ 13 := by
  simp only [isSpace, space, Bool.or_eq_true, Bool.and_eq_true, decide_eq_true_eq, ← UInt8.toNat_inj]
  exact Iff.rfl

/-- A number without a sign starts with a digit, and so neither with a space nor with a sign. -/
theorem atoi_digits {bs : Bytes} (hne : bs ≠ []) (h : ∀ b ∈ bs, isDigit b = true) :
    atoi bs = wrap32 (digitsValue bs) := by
  obtain ⟨b, bs', rfl⟩ := exists_cons_of_ne_nil hne
  have hb := isDigit_iff.1 (h b mem_cons_self)
  have hspace : isSpace b = false := by rw [Bool.eq_false_iff, Ne, isSpace_iff]; omega
  have hminus : b ≠ 45 := by rintro rfl; exact absurd hb (by decide)
  have hplus : b ≠ 43 := by rintro rfl; exact absurd hb (by decide)
  have htake : (b :: bs').takeWhile isDigit = b :: bs' := takeWhile_eq_self_iff.2 h
  rw [atoi, dropWhile_cons_of_neg (by simp [hspace]), signedValue, if_neg hminus, if_neg hplus, htake]

theorem atoi_minus {bs : Bytes} (h : ∀ b ∈ bs, isDigit b = true) :
    atoi (45 :: bs) = wrap32 (-(digitsValue bs : Int)) := by
  have htake : bs.takeWhile isDigit = bs := takeWhile_eq_self_iff.2 h
  rw [atoi, dropWhile_cons_of_neg (by decide), signedValue, if_pos rfl, htake]

/-- `atoi` reads a printed `int` back. -/
theorem atoi_decimalInt (hl : -2 ^ 31 ≤ i) (hu : i < 2 ^ 31) : atoi (decimalInt i) = i := by
  rw [decimalInt]
  split
  · rw [atoi_minus (isDigit_decimal _), digitsValue_decimal, Int.ofNat_natAbs_of_nonpos (by omega), neg_neg]
    exact wrap32_of_mem hl hu
  · rw [atoi_digits (decimal_ne_nil _) (isDigit_decimal _), digitsValue_decimal, Int.natAbs_of_nonneg (by omega)]
    exact wrap32_of_mem hl hu

theorem length_decimalInt_le (hl : -2 ^ 31 ≤ i) (hu : i < 2 ^ 31) : (decimalInt i).length ≤ 11 := by
  have h : (decimal i.natAbs).length ≤ 9 + 1 := length_decimal_le (by omega)
  rw [decimalInt]
  split
  · rw [length_cons]; omega
  · omega

theorem mem_decimalInt (h : b ∈ decimalInt i) : b = 45 ∨ isDigit b = true := by
  rw [decimalInt] at h
  split at h
  · exact (mem_cons.1 h).imp_right (isDigit_decimal _ b)
  · exact .inr (isDigit_decimal _ b h)

/-! ## What follows a number -/

/-- A byte that is no part of a number ends it. -/
theorem signedValue_append (bs : Bytes) (hminus : b ≠ 45) (hplus : b ≠ 43) (hdigit : isDigit b = false)
    (rest : Bytes) : signedValue (bs ++ b :: rest) = signedValue bs := by
  cases bs with
  | nil =>
    show signedValue (b :: rest) = 0
    rw [signedValue, if_neg hminus, if_neg hplus, takeWhile_cons_of_neg (by simp [hdigit])]
    rfl
  | cons e es =>
    rw [cons_append, signedValue, signedValue, takeWhile_append_stop _ es hdigit, ← cons_append,
      takeWhile_append_stop _ (e :: es) hdigit]

theorem atoi_append (bs : Bytes) (hspace : isSpace b = false) (hminus : b ≠ 45) (hplus : b ≠ 43)
    (hdigit : isDigit b = false) (rest : Bytes) : atoi (bs ++ b :: rest) = atoi bs := by
  have hend := signedValue_append (bs.dropWhile isSpace) hminus hplus hdigit rest
  rw [atoi, atoi, dropWhile_append]
  split
  · rename_i hempty
    rw [isEmpty_iff.1 hempty] at hend ⊢
    rw [dropWhile_cons_of_neg (by simp [hspace])]
    exact congrArg wrap32 hend
  · rw [hend]

end Lorica

import Mathlib

/-!
# Cyclic redundancy checks

The check of a string of bits is what stays in a shift register into which the bits enter
one by one, at its low end (`feed`): when the bit that leaves is set the polynomial is
added. A register takes a whole number of bits at once (`feedBits_eq`): they are added to its
low end, and the register is shifted that often. When they are those that it holds already, it keeps
nothing of them (`feedBits_self`).

`shifts_low` is what table driven implementations use: many shifts of a register are those
of its low bits, from the table, and the rest moved down.
-/

namespace Lorica.Crc

variable {w : Nat} (poly : BitVec w)

/-- One shift of the register. -/
def shift (c : BitVec w) : BitVec w := (c >>> 1) ^^^ if c.getLsbD 0 then poly else 0

def shifts : Nat → BitVec w → BitVec w
  | 0, c => c
  | n + 1, c => shift poly (shifts n c)

/-- A bit at the low end. -/
def lowBit (b : Bool) : BitVec w := if b then 1 else 0

/-- One bit enters. -/
def feed (c : BitVec w) (b : Bool) : BitVec w := shift poly (c ^^^ lowBit b)

/-- The first `n` bits enter, in order. -/
def feedBits (bits : Nat → Bool) : Nat → BitVec w → BitVec w
  | 0, c => c
  | n + 1, c => feed poly (feedBits bits n c) (bits n)

/-- The first `n` bits, as a number. -/
def number (bits : Nat → Bool) : Nat → BitVec w
  | 0 => 0
  | n + 1 => number bits n ^^^ (lowBit (bits n) <<< n)

/-! ## Shifts are linear -/

theorem shift_xor (a b : BitVec w) : shift poly (a ^^^ b) = shift poly a ^^^ shift poly b := by
  unfold shift
  rw [BitVec.getLsbD_xor]
  apply BitVec.eq_of_getLsbD_eq
  intro i _
  cases ha : a.getLsbD 0 <;> cases hb : b.getLsbD 0 <;> simp [Bool.xor_comm, Bool.xor_left_comm]

theorem shifts_xor (n : Nat) (a b : BitVec w) : shifts poly n (a ^^^ b) = shifts poly n a ^^^ shifts poly n b := by
  induction n with
  | zero => rfl
  | succ n ih => rw [shifts, ih, shift_xor, shifts, shifts]

/-- Bits that do not reach the low end are only moved down. -/
theorem shifts_clear {c : BitVec w} {n : Nat} (h : ∀ i < n, c.getLsbD i = false) : shifts poly n c = c >>> n := by
  induction n with
  | zero => simp [shifts]
  | succ n ih =>
    have hlow : (c >>> n).getLsbD 0 = false := by simpa using h n (Nat.lt_succ_self n)
    rw [shifts, ih fun i hi => h i (Nat.lt_succ_of_lt hi), shift, hlow, BitVec.shiftRight_add]
    simp

/-- The low `n` bits of a register, and the others. -/
theorem shifts_low (n : Nat) (c : BitVec w) :
    shifts poly n c = shifts poly n (c &&& BitVec.ofNat w (2 ^ n - 1)) ^^^ (c >>> n) := by
  have hmask : ∀ i, (BitVec.ofNat w (2 ^ n - 1)).getLsbD i = (decide (i < w) && decide (i < n)) := by
    intro i
    rw [BitVec.getLsbD_ofNat, Nat.testBit_two_pow_sub_one]
  have hsplit : c = (c &&& BitVec.ofNat w (2 ^ n - 1)) ^^^ (c &&& ~~~ BitVec.ofNat w (2 ^ n - 1)) := by
    apply BitVec.eq_of_getLsbD_eq
    intro i hi
    rw [BitVec.getLsbD_xor, BitVec.getLsbD_and, BitVec.getLsbD_and, BitVec.getLsbD_not]
    cases c.getLsbD i <;> simp [hi]
  have hhigh : ∀ i < n, (c &&& ~~~ BitVec.ofNat w (2 ^ n - 1)).getLsbD i = false := by
    intro i hi
    rw [BitVec.getLsbD_and, BitVec.getLsbD_not, hmask]
    by_cases hw : i < w <;> simp [hi]
  have hdown : (c &&& ~~~ BitVec.ofNat w (2 ^ n - 1)) >>> n = c >>> n := by
    apply BitVec.eq_of_getLsbD_eq
    intro i _
    rw [BitVec.getLsbD_ushiftRight, BitVec.getLsbD_and, BitVec.getLsbD_not, hmask]
    by_cases hw : n + i < w
    · simp [hw]
    · simp [BitVec.getLsbD_of_ge c (n + i) (by omega)]
  conv_lhs => rw [hsplit]
  rw [shifts_xor, shifts_clear poly hhigh, hdown]

/-! ## Whole numbers -/

theorem getLsbD_number (bits : Nat → Bool) (n i : Nat) :
    (number bits n : BitVec w).getLsbD i = (decide (i < w) && decide (i < n) && bits i) := by
  induction n with
  | zero => simp [number]
  | succ n ih =>
    rw [number, BitVec.getLsbD_xor, ih]
    by_cases hi : i < n
    · simp [hi, Nat.lt_succ_of_lt hi]
    · by_cases he : i = n
      · subst he
        cases hb : bits i <;> simp [lowBit]
        by_cases hw : i < w
        · simp [show 0 < w by omega]
        · simp [hw]
      · cases hb : bits n <;> simp [lowBit, hi, show ¬ i < n + 1 by omega, show i - n ≠ 0 by omega]

theorem shifts_lowBit {n : Nat} (hn : n < w) (b : Bool) : shifts poly n (lowBit b <<< n) = lowBit b := by
  rw [shifts_clear poly fun i hi => by simp [hi]]
  apply BitVec.eq_of_getLsbD_eq
  intro i hi
  rw [BitVec.getLsbD_ushiftRight, BitVec.getLsbD_shiftLeft]
  cases b with
  | false => simp [lowBit]
  | true =>
    by_cases h0 : i = 0
    · simp [h0, hn]
    · simp [lowBit, h0]

/-- `n` bits enter at once. -/
theorem feedBits_eq (bits : Nat → Bool) {n : Nat} (hn : n ≤ w) (c : BitVec w) :
    feedBits poly bits n c = shifts poly n (c ^^^ number bits n) := by
  induction n with
  | zero => simp [feedBits, number, shifts]
  | succ n ih =>
    rw [feedBits, ih (by omega), feed, number, shifts, ← BitVec.xor_assoc, shifts_xor poly n (c ^^^ number bits n),
      shifts_lowBit poly (by omega)]

theorem feedBits_congr {bits bits' : Nat → Bool} {n : Nat} (h : ∀ k < n, bits k = bits' k) (c : BitVec w) :
    feedBits poly bits n c = feedBits poly bits' n c := by
  induction n with
  | zero => rfl
  | succ n ih => rw [feedBits, feedBits, ih fun k hk => h k (Nat.lt_succ_of_lt hk), h n n.lt_succ_self]

theorem feedBits_add (bits : Nat → Bool) (m n : Nat) (c : BitVec w) :
    feedBits poly bits (m + n) c = feedBits poly (fun k => bits (m + k)) n (feedBits poly bits m c) := by
  induction n with
  | zero => rfl
  | succ n ih => rw [← Nat.add_assoc, feedBits, feedBits, ih]

/-- A register that its own bits enter, turned over by `m`, forgets what it held. -/
theorem feedBits_self (c m : BitVec w) : feedBits poly (c ^^^ m).getLsbD w c = shifts poly w m := by
  have hnum : number (c ^^^ m).getLsbD w = c ^^^ m := by
    apply BitVec.eq_of_getLsbD_eq
    intro i hi
    rw [getLsbD_number]
    simp [hi]
  rw [feedBits_eq poly _ le_rfl, hnum, ← BitVec.xor_assoc, BitVec.xor_self, BitVec.zero_xor]

end Lorica.Crc

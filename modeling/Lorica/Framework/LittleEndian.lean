import Lorica.Framework.Disk
import Lorica.Framework.Path

/-!
# Numbers in buffers

`getLe` and `putLe` read and write a little-endian number of some bytes. A number that is
written is read back (`getLe_putLe`), and writing elsewhere does not change it
(`getLe_putLe_of_disjoint`).
-/

namespace Lorica

/-- The number in the `n` bytes at `off`. -/
def getLe (b : Buf) : Nat → Nat → Nat
  | _, 0 => 0
  | off, n + 1 => (b off).toNat + 256 * getLe b (off + 1) n

/-- The buffer with `v` in the `n` bytes at `off`. -/
def putLe (b : Buf) (off n v : Nat) : Buf := fun i =>
  if off ≤ i ∧ i < off + n then UInt8.ofNat (v / 256 ^ (i - off)) else b i

/-- The buffer with the bytes `bs` at `off`. -/
def putBytes (b : Buf) (off : Nat) (bs : Bytes) : Buf := fun i =>
  if off ≤ i ∧ i < off + bs.length then bs.getD (i - off) 0 else b i

variable {b b' : Buf} {off n off' n' v : Nat} {bs : Bytes}

theorem getLe_congr (h : ∀ i, off ≤ i → i < off + n → b i = b' i) : getLe b off n = getLe b' off n := by
  induction n generalizing off with
  | zero => rfl
  | succ n ih =>
    rw [getLe, getLe, h off le_rfl (by omega), ih fun i hi hi' => h i (by omega) (by omega)]

theorem putLe_out {i : Nat} (h : i < off ∨ off + n ≤ i) : putLe b off n v i = b i := if_neg (by omega)

theorem putLe_in {i : Nat} (h : i < n) : putLe b off n v (off + i) = UInt8.ofNat (v / 256 ^ i) := by
  rw [putLe, if_pos ⟨by omega, by omega⟩, Nat.add_sub_cancel_left]

theorem putBytes_out {i : Nat} (h : i < off ∨ off + bs.length ≤ i) : putBytes b off bs i = b i := if_neg (by omega)

theorem getLe_of_digits (h : ∀ i < n, b (off + i) = UInt8.ofNat (v / 256 ^ i)) : getLe b off n = v % 256 ^ n := by
  induction n generalizing off v with
  | zero => rw [getLe, Nat.pow_zero, Nat.mod_one]
  | succ n ih =>
    have h0 : b off = UInt8.ofNat v := by simpa using h 0 (by omega)
    have hrest : getLe b (off + 1) n = v / 256 % 256 ^ n := by
      refine ih fun i hi => ?_
      rw [Nat.add_assoc, Nat.add_comm 1 i, h (i + 1) (by omega), Nat.pow_succ', Nat.div_div_eq_div_mul]
    rw [getLe, h0, hrest, UInt8.toNat_ofNat', Nat.pow_succ' (m := 256), Nat.mod_mul]

/-- A number that is written is read back. -/
theorem getLe_putLe (h : v < 256 ^ n) : getLe (putLe b off n v) off n = v := by
  rw [getLe_of_digits fun i hi => putLe_in hi, Nat.mod_eq_of_lt h]

theorem getLe_putLe_of_disjoint (h : off + n ≤ off' ∨ off' + n' ≤ off) :
    getLe (putLe b off' n' v) off n = getLe b off n :=
  getLe_congr fun i hi hi' => putLe_out (by omega)

theorem getLe_putBytes_of_disjoint (h : off + n ≤ off' ∨ off' + bs.length ≤ off) :
    getLe (putBytes b off' bs) off n = getLe b off n :=
  getLe_congr fun i hi hi' => putBytes_out (by omega)

end Lorica

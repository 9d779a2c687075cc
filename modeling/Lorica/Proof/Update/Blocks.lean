import Lorica.Impl.Update.Main

/-!
# lorica-update: whole blocks

`raw_io` reads and writes whole blocks of the device. It reads the bytes it is asked for
(`rawRead_wp`); a write, wherever it stops, has written a prefix of its bytes
(`rawWrite_wp`), since what else is in a block is written as it was. So what is proved of a
program with `fs->io` as its operation holds when `raw_io` is put in its place
(`lower_wp`).
-/

namespace Lorica.Proof.Update

open Lorica.Impl.Update Disk

/-- Whether the transfer of a block may fail. -/
def BlockAllows (faults : Bool) : Block.Choice → Prop
  | .ok => True
  | .fail => faults = true

abbrev BlockWP {bsz : Nat} {α : Type} (faults : Bool) (p : Prog (Block.machine bsz) α) (d : Disk)
    (Q : α → Disk → Prop) (C : Disk → Prop) : Prop :=
  WP (M := Block.machine bsz) (BlockAllows faults) p d Q fun _ => C

variable {bsz : Nat} {d : Disk} {faults : Bool}

section

variable {α : Type} {Q : α → Disk → Prop} {C : Disk → Prop} {lba : Nat}

theorem blockRead_wp {f : Option Buf → Prog (Block.machine bsz) α} (hC : C d)
    (hsome : (lba + 1) * bsz ≤ d.size → BlockWP faults (f (some (d.slice (lba * bsz) bsz))) d Q C)
    (hnone : d.size < (lba + 1) * bsz ∨ faults = true → BlockWP faults (f none) d Q C) :
    BlockWP faults (Block.read lba >>= f) d Q C := by
  refine ⟨hC, fun c hc => ?_⟩
  cases c with
  | ok =>
    change BlockWP faults (f (if _ then _ else _)) d Q C
    split
    · exact hsome (by assumption)
    · exact hnone (.inl (by omega))
  | fail => exact hnone (.inr hc)

theorem blockWrite_wp {block : Buf} {Q : Bool → Disk → Prop} (hC : C d)
    (hok : (lba + 1) * bsz ≤ d.size → Q true (d.overwrite (lba * bsz) bsz block))
    (hfail : d.size < (lba + 1) * bsz ∨ faults = true → Q false d) :
    BlockWP faults (Block.write lba block : Prog (Block.machine bsz) Bool) d Q C := by
  refine ⟨hC, fun c hc => ?_⟩
  cases c with
  | ok =>
    change Q (if _ then (true, _) else (false, _)).1 (if _ then (true, _) else (false, _)).2
    split
    · exact hok (by assumption)
    · exact hfail (.inl (by omega))
  | fail => exact hfail (.inr hc)

end

/-- On a device of whole blocks, an offset in a block that it does not have is beyond it. -/
theorem size_le_of_block (hdev : faults = true ∨ bsz ∣ d.size) {off : Nat}
    (h : d.size < (off / bsz + 1) * bsz ∨ faults = true) : faults = true ∨ d.size ≤ off := by
  rcases hdev with hfault | ⟨m, hm⟩
  · exact .inl hfault
  rcases h with h | hfault
  · rw [hm, Nat.mul_comm bsz] at h
    have hlt : m < off / bsz + 1 := Nat.lt_of_mul_lt_mul_right h
    refine .inr ?_
    calc
      d.size = m * bsz := by rw [hm, Nat.mul_comm]
      _ ≤ off / bsz * bsz := Nat.mul_le_mul_right bsz (by omega)
      _ ≤ off := Nat.div_mul_le_self off bsz
  · exact .inl hfault

/-- Reading gives the bytes, if the device has them. -/
theorem rawRead_wp (hb : 0 < bsz) (hdev : faults = true ∨ bsz ∣ d.size) {fuel off len : Nat} (hfuel : len ≤ fuel) :
    BlockWP faults (rawRead bsz fuel off len) d
      (fun r d' => d' = d ∧ (r = some (d.slice off len) ∧ d.Has off len ∨ r = none ∧ (faults = true ∨ ¬ d.Has off len)))
      (fun d' => d' = d) := by
  induction fuel generalizing off len with
  | zero =>
    obtain rfl : len = 0 := by omega
    exact ⟨rfl, .inl ⟨rfl, .inl rfl⟩⟩
  | succ fuel ih =>
    rw [rawRead]
    by_cases hlen : len = 0
    · subst hlen
      exact ⟨rfl, .inl ⟨rfl, .inl rfl⟩⟩
    have hmod := Nat.mod_lt off hb
    have hoff := Nat.div_add_mod' off bsz
    rw [if_neg hlen]
    refine blockRead_wp rfl (fun hin => ?_) fun hout => ⟨rfl, .inr ⟨rfl, ?_⟩⟩
    · rw [Nat.add_mul] at hin
      refine WP.seq (@ih (off + min (bsz - off % bsz) len) _ (by omega)) (fun r d' h => ?_)
      obtain ⟨rfl, ⟨rfl, hhas⟩ | ⟨rfl, hnone⟩⟩ := h
      · refine ⟨rfl, .inl ⟨congrArg some ?_, .inr ?_⟩⟩
        · funext i
          rw [joinBufs]
          split
          · rw [slice_of_lt (by omega), slice_of_lt (by omega)]
            congr 1
            omega
          · by_cases hi : i < len
            · rw [slice_of_lt (by omega), slice_of_lt hi]
              congr 1
              omega
            · rw [slice, if_neg (by omega), slice, if_neg hi]
        · rcases hhas with hhas | hhas <;> omega
      · refine ⟨rfl, .inr ⟨rfl, hnone.imp_right fun h hhas => h ?_⟩⟩
        rcases hhas with hhas | hhas
        · exact absurd hhas hlen
        · rw [Has]
          omega
    · refine (size_le_of_block hdev hout).imp_right fun hle hhas => ?_
      rcases hhas with hhas | hhas <;> omega

/-- Writing some bytes of a block. -/
theorem rawWriteBlock_wp {lba pos n : Nat} {p : Buf} (hn : pos + n ≤ bsz) :
    BlockWP faults (rawWriteBlock bsz lba pos n p) d
      (fun ok d' => ok = true ∧ d' = d.overwrite (lba * bsz + pos) n p ∧ (lba + 1) * bsz ≤ d.size ∨
        ok = false ∧ d' = d ∧ (d.size < (lba + 1) * bsz ∨ faults = true)) (fun d' => d' = d) := by
  rw [rawWriteBlock]
  split
  · refine blockRead_wp rfl (fun _ => ?_) fun hout => .inr ⟨rfl, rfl, hout⟩
    refine blockWrite_wp rfl (fun hin => .inl ⟨rfl, ?_, hin⟩) fun hout => .inr ⟨rfl, rfl, hout⟩
    refine Disk.ext' rfl fun i => ?_
    by_cases hi : lba * bsz ≤ i ∧ i < lba * bsz + bsz
    · rw [overwrite_in hi.1 hi.2]
      split
      · rw [overwrite_in (by omega) (by omega)]
        congr 1
        omega
      · rw [overwrite_out (by omega), slice_of_lt (by omega)]
        congr 1
        omega
    · rw [overwrite_out (by omega), overwrite_out (by omega)]
  · obtain ⟨rfl, rfl⟩ : pos = 0 ∧ n = bsz := by omega
    exact blockWrite_wp rfl (fun hin => .inl ⟨rfl, rfl, hin⟩) fun hout => .inr ⟨rfl, rfl, hout⟩

/-- How a write of `raw_io` ends. -/
def RawWritten (faults : Bool) (off len : Nat) (p : Buf) (d : Disk) (ok : Bool) (d' : Disk) : Prop :=
  ok = true ∧ d' = d.overwrite off len p ∧ d.Has off len ∨
    ok = false ∧ (¬ d.Has off len ∧ d' = d.overwrite off (d.fit off len) p ∨
      faults = true ∧ ∃ k ≤ d.fit off len, d' = d.overwrite off k p)

/-- A write stops after a prefix of its bytes. -/
theorem rawWrite_wp (hb : 0 < bsz) (hdev : faults = true ∨ bsz ∣ d.size) {fuel off len : Nat} {p : Buf}
    (hfuel : len ≤ fuel) : BlockWP faults (rawWrite bsz fuel off len p) d (RawWritten faults off len p d)
      (fun d' => ∃ k ≤ d.fit off len, d' = d.overwrite off k p) := by
  induction fuel generalizing off len p d with
  | zero =>
    obtain rfl : len = 0 := by omega
    exact .inl ⟨rfl, overwrite_zero.symm, .inl rfl⟩
  | succ fuel ih =>
    rw [rawWrite]
    by_cases hlen : len = 0
    · subst hlen
      exact .inl ⟨rfl, overwrite_zero.symm, .inl rfl⟩
    have hmod := Nat.mod_lt off hb
    have hoff := Nat.div_add_mod' off bsz
    rw [if_neg hlen]
    refine WP.bind (rawWriteBlock_wp (by omega)) (fun ok d' h => ?_) fun _ d' h =>
      ⟨0, Nat.zero_le _, by rw [overwrite_zero]; exact h⟩
    rw [hoff] at h
    obtain ⟨rfl, rfl, hin⟩ | ⟨rfl, rfl, hout⟩ := h
    · rw [Nat.add_mul] at hin
      -- what is written from here on comes after the first `n` bytes
      generalize hn : min (bsz - off % bsz) len = n
      have hfit : n + (d.overwrite off n p).fit (off + n) (len - n) = d.fit off len := by
        rw [fit, fit, overwrite_size]
        omega
      have hhas : (d.overwrite off n p).Has (off + n) (len - n) ↔ d.Has off len := by
        rw [Has, Has, overwrite_size]
        omega
      refine WP.mono (@ih (d.overwrite off n p) hdev (off + n) (len - n) (fun i => p (n + i)) (by omega))
        (fun ok d' h => ?_) fun _ d' h => ?_
      · simp only [RawWritten, overwrite_append, hfit, hhas] at h
        rw [Nat.add_sub_cancel' (by omega)] at h
        refine h.imp_right fun h => ⟨h.1, h.2.imp_right fun h => ⟨h.1, ?_⟩⟩
        obtain ⟨k, hk, rfl⟩ := h.2
        exact ⟨n + k, by omega, rfl⟩
      · obtain ⟨k, hk, rfl⟩ := h
        rw [overwrite_append]
        exact ⟨n + k, by omega, rfl⟩
    · refine .inr ⟨rfl, ?_⟩
      rcases size_le_of_block hdev hout with hfault | hle
      · exact .inr ⟨hfault, 0, Nat.zero_le _, overwrite_zero.symm⟩
      · refine .inl ⟨by rw [Has]; omega, ?_⟩
        have hz : d'.fit off len = 0 := by
          rw [fit]
          omega
        rw [hz, overwrite_zero]

theorem lower_bind {α β : Type} (p : Dev α) (f : α → Dev β) :
    lower bsz (p >>= f) = lower bsz p >>= fun a => lower bsz (f a) := by
  induction p with
  | pure a => rfl
  | op o k ih =>
    cases o with
    | read off len =>
      exact (congrArg (rawRead bsz len off len >>= ·) (funext ih)).trans (Prog.bind_assoc _ _ _).symm
    | write off len buf =>
      exact (congrArg (rawWrite bsz len off len buf >>= ·) (funext ih)).trans (Prog.bind_assoc _ _ _).symm

/-- What holds of a program whose operations stop anywhere holds with `raw_io` in their
place. -/
theorem lower_wp {α : Type} {p : Dev α} {Q : α → Disk → Prop} {C : Disk → Prop} (hb : 0 < bsz)
    (hdev : faults = true ∨ bsz ∣ d.size) (h : Dev.WP faults p d Q fun o d' => ∀ k, C (tear o k d')) :
    BlockWP faults (lower bsz p) d Q C := by
  induction p generalizing d with
  | pure a => exact h
  | op o k ih =>
    cases o with
    | read off len =>
      refine WP.bind (rawRead_wp hb hdev (le_refl len)) (fun r d' hr => ?_) fun _ d' hd => ?_
      · obtain ⟨rfl, ⟨rfl, hin⟩ | ⟨rfl, hfault | hout⟩⟩ := hr
        · have hk : Dev.WP faults (k (stepRead off len .ok d')) d' Q _ := h.2 .ok trivial
          rw [stepRead, if_pos hin] at hk
          exact ih _ hdev hk
        · exact ih _ hdev (h.2 (.fail 0) hfault)
        · have hk : Dev.WP faults (k (stepRead off len .ok d')) d' Q _ := h.2 .ok trivial
          rw [stepRead, if_neg hout] at hk
          exact ih _ hdev hk
      · exact hd ▸ h.1 0
    | write off len buf =>
      refine WP.bind (rawWrite_wp hb hdev (le_refl len)) (fun ok d' hr => ?_) fun _ d' hd => ?_
      · have hok : Dev.WP faults (k (stepWrite off len buf .ok d).1) (stepWrite off len buf .ok d).2
          Q _ := h.2 .ok trivial
        rw [stepWrite] at hok
        obtain ⟨rfl, rfl, hin⟩ | ⟨rfl, ⟨hout, rfl⟩ | ⟨hfault, m, hm, rfl⟩⟩ := hr
        · rw [if_pos hin] at hok
          exact ih _ hdev hok
        · rw [if_neg hout] at hok
          exact ih _ hdev hok
        · have hk : Dev.WP faults (k false) (d.overwrite off (min m (d.fit off len)) buf) Q _ := h.2 (.fail m) hfault
          rw [Nat.min_eq_left hm] at hk
          exact ih _ hdev hk
      · obtain ⟨m, hm, rfl⟩ := hd
        have := h.1 m
        rwa [tear, Nat.min_eq_left hm] at this

end Lorica.Proof.Update

import Lorica.Impl.Install.Ext2Grow
import Lorica.Proof.Install.Extend

/-!
# ext2_grow: the writes

What the parts of `ext2_grow` write, block by block (`Frame`), at every point of a run with
any faults (`Safe K`: up to the next operation `K` holds). Up to the write of the
descriptors all of this lies where the old file system does not look (`Kept`).
-/

namespace Lorica.Proof.Install

open Lorica.Impl.Install Disk

variable {d d₁ d₂ d₃ : Disk} {b n k : Nat} {m : Buf}

/-! ## Bits and numbers -/

theorem bit_clearbit : bit (clearbit m n) k = (bit m k && decide (k ≠ n)) := by
  rw [bit, bit, clearbit]
  by_cases hb : k / 8 = n / 8
  · have hlt : 2 ^ (n % 8) < UInt8.size := Nat.pow_lt_pow_right (by decide) (Nat.mod_lt n (by decide) : n % 8 < 8)
    have hk : k % 8 < 8 := Nat.mod_lt k (by decide)
    have hiff : (n % 8 = k % 8) = (k = n) := by
      refine propext ⟨fun h => ?_, fun h => by rw [h]⟩
      omega
    have hnot : (~~~ UInt8.ofNat (2 ^ (n % 8))).toNat.testBit (k % 8) = decide (k ≠ n) := by
      rw [UInt8.toNat_not, UInt8.toNat_ofNat_of_lt' hlt, Nat.sub_sub, Nat.add_comm 1, show UInt8.size = 2 ^ 8 from rfl,
        Nat.testBit_two_pow_sub_succ hlt]
      simp [hk, Nat.testBit_two_pow, hiff]
    rw [if_pos hb, UInt8.toNat_and, Nat.testBit_and, hnot]
  · have hne : k ≠ n := fun h => hb (by rw [h])
    rw [if_neg hb, decide_eq_true hne, Bool.and_true]

theorem bit_clearBits {first : Nat} :
    bit (clearBits n first m) k = (bit m k && decide (¬ (first ≤ k ∧ k < first + n))) := by
  induction n generalizing first m with
  | zero => simp [clearBits]
  | succ n ih =>
    rw [clearBits, ih, bit_clearbit, Bool.and_assoc, ← Bool.decide_and]
    congr 2
    refine propext ?_
    omega

theorem bit_clearRange {first last : Nat} :
    bit (bitmapClearRange m first last) k = (bit m k && decide (¬ (first ≤ k ∧ k < last))) := by
  rw [bitmapClearRange, bit_clearBits]
  congr 2
  refine propext ?_
  omega

theorem bit_ones : bit ones k = true := by
  have hk : k % 8 < 8 := Nat.mod_lt k (by decide)
  rw [bit, ones, show (0xff : UInt8).toNat = 2 ^ 8 - 1 by decide, Nat.testBit_two_pow_sub_one]
  exact decide_eq_true hk

variable {p : Buf} {o o' v : Nat}

theorem r32_w32_ne (h : o' + 4 ≤ o ∨ o + 4 ≤ o') : r32 (w32 p o v) o' = r32 p o' :=
  r32_congr fun _ _ => w32_out (by omega)

theorem r32_w16_ne (h : o' + 4 ≤ o ∨ o + 2 ≤ o') : r32 (w16 p o v) o' = r32 p o' :=
  r32_congr fun _ _ => w16_out (by omega)

theorem r16_w32_ne (h : o' + 2 ≤ o ∨ o + 4 ≤ o') : r16 (w32 p o v) o' = r16 p o' :=
  r16_congr (w32_out (by omega)) (w32_out (by omega))

/-! ## Frames -/

/-- The blocks outside `S` are as they were. -/
structure Frame (S : Nat → Prop) (d d' : Disk) : Prop where
  size : d'.size = d.size
  block : ∀ b, ¬ S b → blockAt d' b = blockAt d b

section

variable {S S' : Nat → Prop}

theorem Frame.refl (d : Disk) : Frame S d d := ⟨rfl, fun _ _ => rfl⟩

theorem Frame.mono (h : Frame S d d₁) (hS : ∀ b, S b → S' b) : Frame S' d d₁ :=
  ⟨h.size, fun b hb => h.block b fun hs => hb (hS b hs)⟩

theorem Frame.trans (h : Frame S d d₁) (h' : Frame S d₁ d₂) : Frame S d d₂ :=
  ⟨h'.size.trans h.size, fun b hb => (h'.block b hb).trans (h.block b hb)⟩

/-- A write, or a part of it, that stays in the blocks of `S`. -/
theorem Frame.overwrite {first count : Nat} (hn : n ≤ count * spb * 512)
    (hS : ∀ b, first ≤ b → b < first + count → S b) : Frame S d (d.overwrite (first * spb * 512) n m) := by
  refine ⟨rfl, fun b hb => slice_congr fun i hi hi' => overwrite_out ?_⟩
  have hout : b < first ∨ first + count ≤ b := by
    by_contra hin
    exact hb (hS b (by omega) (by omega))
  simp only [spb] at *
  omega

theorem Frame.write (hn : n ≤ spb * 512) (hS : S b) : Frame S d (d.overwrite (b * spb * 512) n m) := by
  have hn' : n ≤ 1 * spb * 512 := by rwa [Nat.one_mul]
  exact .overwrite hn' fun b' h1 h2 => (show b' = b by omega) ▸ hS

end

/-- A byte that a write would not change is the same after any part of it. -/
theorem blockAt_part (h : m o = blockAt d b o) : blockAt (d.overwrite (b * spb * 512) n m) b o = blockAt d b o := by
  rcases blockAt_overwrite_cases b n m o with e | e
  · rw [e, h]
  · exact e

theorem bit_part (h : bit m k = bit (blockAt d b) k) :
    bit (blockAt (d.overwrite (b * spb * 512) n m) b) k = bit (blockAt d b) k := by
  rcases blockAt_overwrite_cases b n m (k / 8) with e | e
  · rw [bit_congr e, h]
  · exact bit_congr e

theorem superblock_congr (h : blockAt d₁ 0 = blockAt d 0) : d₁.sb = d.sb := by
  refine slice_congr fun i hi hi' => ?_
  have hlt : i < spb * 512 := by
    simp only [spb]
    omega
  have hbyte := congrFun h i
  rwa [blockAt, blockAt, slice_of_lt hlt, slice_of_lt hlt, Nat.zero_mul, Nat.zero_mul, Nat.zero_add] at hbyte

/-! ## At every point -/

/-- A write of the first sectors of the superblock. -/
def writesSuper : Op → Bool
  | .read _ _ => false
  | .write off _ _ => off == 2 * 512

/-- The program ends as `Q` says, at every point `K` holds, and the superblock is not written. -/
def Safe {α : Type} (K : Disk → Prop) (p : Rep α) (d : Disk) (Q : α → Disk → Prop) : Prop :=
  Try.WP (Allows true) p d Q (fun _ => K) fun o d' => K d' ∧ writesSuper o = false

section

variable {α β σ : Type} {K : Disk → Prop} {Q : α → Disk → Prop} {R : β → Disk → Prop}

namespace Safe

theorem pure {a : α} (h : Q a d) : Safe K (Pure.pure a) d Q := Try.WP.pure h

theorem fail (s : String) (h : K d) : Safe K (Impl.Install.fail s) d Q := Try.WP.throw h

variable {p : Rep α}

theorem mono {Q' : α → Disk → Prop} (h : Safe K p d Q) (hQ : ∀ a d', Q a d' → Q' a d') : Safe K p d Q' :=
  Try.WP.mono h hQ

theorem weaken {K' : Disk → Prop} (h : Safe K p d Q) (hK : ∀ d', K d' → K' d') : Safe K' p d Q :=
  Try.WP.weaken h (fun _ _ h => h) (fun _ d' h => hK d' h) fun _ d' h => ⟨hK d' h.1, h.2⟩

theorem bind {f : α → Rep β} (h : Safe K p d Q) (hf : ∀ a d', Q a d' → Safe K (f a) d' R) :
    Safe K (p >>= f) d R := Try.WP.bind h hf

theorem orFail (s : String) (h : Safe K p d Q) : Safe K (Impl.Install.orFail s p) d Q := Try.WP.adapt h

theorem loop {f : Nat → σ → Rep σ} {n i : Nat} {x : σ} (I : Nat → σ → Disk → Prop) (h : I i x d)
    (hstep : ∀ j, i ≤ j → j < i + n → ∀ x d, I j x d → Safe K (f j x) d (I (j + 1))) :
    Safe K (Try.loop f n i x) d (I (i + n)) := Try.WP.loop (M := machine) I h hstep

end Safe

variable {sector count : Nat} {buf : Buf}

theorem growRead_safe (h : K d) : Safe K (growRead sector count) d fun buf d' =>
    d' = d ∧ buf = d.slice (sector * 512) (count * 512) := by
  refine Try.WP.lift_bind (Q := fun r d' => d' = d ∧ (r = some (d.slice (sector * 512) (count * 512)) ∨ r = none)) ?_
    fun r d' hr => ?_
  · exact Dev.WP.read ⟨h, rfl⟩ (fun _ => ⟨rfl, .inl rfl⟩) fun _ => ⟨rfl, .inr rfl⟩
  · obtain ⟨rfl, rfl | rfl⟩ := hr
    · exact Safe.pure ⟨rfl, rfl⟩
    · exact Try.WP.throw h

theorem writeChecked_wp {E : Option String → Disk → Prop} {C : Op → Disk → Prop}
    (h : ∀ k ≤ count * 512, E none (d.overwrite (sector * 512) k buf))
    (hwrite : C (.write (sector * 512) (count * 512) buf) d)
    (hread : C (.read (sector * 512) (count * 512)) (d.overwrite (sector * 512) (count * 512) buf)) :
    Try.WP (Allows true) (writeChecked sector count buf) d
      (fun _ d' => d' = d.overwrite (sector * 512) (count * 512) buf ∧ d.Has (sector * 512) (count * 512)) E C := by
  rw [writeChecked]
  split
  · exact Try.WP.throw (overwrite_zero (d := d) ▸ h 0 (Nat.zero_le _))
  refine Try.WP.bind (Q := fun _ d' => d' = d.overwrite (sector * 512) (count * 512) buf ∧
    d.Has (sector * 512) (count * 512)) ?_ fun _ d₁ h1 => ?_
  · refine Try.WP.lift_bind (Q := fun ok d' => E none d' ∧ (ok = false ∨
      d' = d.overwrite (sector * 512) (count * 512) buf ∧ d.Has (sector * 512) (count * 512))) ?_ fun ok d' h' => ?_
    · refine Dev.WP.write hwrite (fun hhas => ⟨h _ (le_refl _), .inr ⟨rfl, hhas⟩⟩) fun k _ => ⟨h _ ?_, .inl rfl⟩
      rw [Disk.fit]
      omega
    · cases ok with
      | false => exact Try.WP.throw h'.1
      | true => exact Try.WP.pure (h'.2.resolve_left Bool.false_ne_true.symm)
  · obtain ⟨h1, hhas⟩ := h1
    rw [← h1] at hread
    have hend : E none d₁ := h1 ▸ h _ (le_refl _)
    refine Try.WP.bind (Q := fun _ d' => d' = d₁) ?_ fun check d₂ h2 => ?_
    · refine Try.WP.lift_bind (Q := fun _ d' => d' = d₁) ?_ fun r d' hr => ?_
      · exact Dev.WP.read hread (fun _ => rfl) fun _ => rfl
      · subst hr
        cases r with
        | none => exact Try.WP.throw hend
        | some buf => exact Try.WP.pure rfl
    · split
      · exact Try.WP.pure ⟨h2.trans h1, hhas⟩
      · exact Try.WP.throw (h2 ▸ hend)

theorem writeChecked_safe (hsec : sector ≠ 2) (h : ∀ k ≤ count * 512, K (d.overwrite (sector * 512) k buf)) :
    Safe K (writeChecked sector count buf) d fun _ d' =>
      d' = d.overwrite (sector * 512) (count * 512) buf ∧ d.Has (sector * 512) (count * 512) := by
  have hsuper : writesSuper (.write (sector * 512) (count * 512) buf) = false :=
    beq_eq_false_iff_ne.mpr fun heq => hsec (Nat.eq_of_mul_eq_mul_right (by decide) heq)
  exact writeChecked_wp h ⟨overwrite_zero (d := d) ▸ h 0 (Nat.zero_le _), hsuper⟩ ⟨h _ (le_refl _), rfl⟩

theorem growWriteBlock_safe (h : ∀ k ≤ spb * 512, K (d.overwrite (b * spb * 512) k buf)) :
    Safe K (growWriteBlock b buf) d fun _ d' => d' = d.overwrite (b * spb * 512) (spb * 512) buf := by
  refine (writeChecked_safe ?_ h).mono fun _ _ h => h.1
  simp only [spb]
  omega

/-- Blocks that are written in a part of the disk where nothing depends on them. -/
theorem growWriteBlock_frame {S : Nat → Prop} (hb : S b) (h : ∀ d', Frame S d d' → K d') :
    Safe K (growWriteBlock b buf) d fun _ d' =>
      d' = d.overwrite (b * spb * 512) (spb * 512) buf ∧ Frame S d d' := by
  refine (growWriteBlock_safe fun k hk => h _ (.write hk hb)).mono fun _ d' hd' => ⟨hd', ?_⟩
  rw [hd']
  exact .write (le_refl _) hb

theorem zeroBlocks_frame {first : Nat} {S : Nat → Prop} (hb : ∀ b, first ≤ b → b < first + count → S b)
    (h : ∀ d', Frame S d d' → K d') : Safe K (Impl.Install.zeroBlocks first count) d fun _ d' =>
      Frame S d d' ∧ (0 < count → (first + count) * spb * 512 ≤ d.size) := by
  have hloop := Safe.loop (K := K) (f := fun c _ => writeChecked ((first + c * zeroChunk) * spb)
      (min (count - c * zeroChunk) zeroChunk * spb) fun _ => 0) (n := (count + zeroChunk - 1) / zeroChunk) (x := ())
    (fun c _ d' => Frame S d d' ∧ (0 < c → (first + min (c * zeroChunk) count) * spb * 512 ≤ d.size))
    ⟨.refl d, fun h => absurd h (Nat.lt_irrefl 0)⟩ fun c _ hc _ d₁ h1 => ?_
  · refine hloop.mono fun _ d' h' => ⟨h'.1, fun hpos => ?_⟩
    have hall := h'.2 (by simp only [zeroChunk]; omega)
    rwa [Nat.min_eq_right (by simp only [zeroChunk]; omega)] at hall
  obtain ⟨h1, -⟩ := h1
  have hframe : ∀ k ≤ min (count - c * zeroChunk) zeroChunk * spb * 512,
      Frame S d₁ (d₁.overwrite ((first + c * zeroChunk) * spb * 512) k fun _ => 0) := fun k hk =>
    Frame.overwrite hk fun b h1 h2 => hb b (by omega) (by omega)
  refine (writeChecked_safe ?_ fun k hk => h _ (h1.trans (hframe k hk))).mono fun _ d' hd' => ⟨?_, fun _ => ?_⟩
  · simp only [spb]
    omega
  · rw [hd'.1]
    exact h1.trans (hframe _ (le_refl _))
  · have hsize : d₁.size = d.size := h1.size
    have hfit := hd'.2
    simp only [Disk.Has, spb, zeroChunk] at hc hfit ⊢
    omega

end

/-! ## The old file system -/

/-- Two multiples of the size of an inode in one block. -/
theorem offsets_apart {i j size : Nat} (hsize : 128 ≤ size) (hne : i ≠ j) (h : i * size / bs = j * size / bs) :
    i * size % bs + 128 ≤ j * size % bs ∨ j * size % bs + 128 ≤ i * size % bs := by
  have hi := Nat.div_add_mod (i * size) bs
  have hj := Nat.div_add_mod (j * size) bs
  rw [h] at hi
  rcases Nat.lt_or_gt_of_ne hne with hlt | hlt
  · have hmul := Nat.mul_le_mul_right size (Nat.succ_le_of_lt hlt)
    rw [Nat.succ_mul] at hmul
    omega
  · have hmul := Nat.mul_le_mul_right size (Nat.succ_le_of_lt hlt)
    rw [Nat.succ_mul] at hmul
    omega

/-- The double-indirect block of inode 7, and the reserved blocks that it lists. -/
def resizeDind (d : Disk) : Nat :=
  r32 (blockAt d (resizeBlock d.sb (blockAt d 1))) (resizeOff d.sb + 92)

def reservedBlock (d : Disk) (r : Nat) : Nat := r32 (blockAt d (resizeDind d)) ((r + 1) * 4)

/-- The file system has one group with all inodes in it, and if there are reserved blocks, an
inode 7 that lists them, which lie between block 2 and the block bitmap. -/
structure OneGroup (d : Disk) : Prop where
  groups : (geometry d.sb).groups = 1
  inodes : (geometry d.sb).inodes = (geometry d.sb).ipg
  seven : reservedGdt d.sb ≠ 0 → 7 ≤ (geometry d.sb).ipg
  reserved : ∀ r < reservedGdt d.sb, reservedBlock d r ≠ 0 →
    2 ≤ reservedBlock d r ∧ reservedBlock d r < blockBitmap (blockAt d 1) 0

instance (d : Disk) : Decidable (OneGroup d) :=
  decidable_of_iff ((geometry d.sb).groups = 1 ∧ (geometry d.sb).inodes = (geometry d.sb).ipg ∧
      (reservedGdt d.sb ≠ 0 → 7 ≤ (geometry d.sb).ipg) ∧ ∀ r < reservedGdt d.sb, reservedBlock d r ≠ 0 →
        2 ≤ reservedBlock d r ∧ reservedBlock d r < blockBitmap (blockAt d 1) 0)
    ⟨fun h => ⟨h.1, h.2.1, h.2.2.1, h.2.2.2⟩, fun h => ⟨h.groups, h.inodes, h.seven, h.reserved⟩⟩

/-- Inode 7 is a reserved one, if it is used. -/
def SevenReserved (d : Disk) : Prop := reservedGdt d.sb ≠ 0 → 7 < (geometry d.sb).firstIno

/-- The double-indirect block of inode 7 is a block of the file system. -/
def DindInside (d : Disk) : Prop := reservedGdt d.sb ≠ 0 → resizeDind d < (geometry d.sb).blocks

/-- The reserved blocks lie before all metadata of group 0. -/
def ReservedFirst (d : Disk) : Prop :=
  ∀ r < reservedGdt d.sb, reservedBlock d r ≠ 0 → reservedBlock d r < prefixEnd (blockAt d 1) 0

instance (d : Disk) : Decidable (SevenReserved d) := inferInstanceAs (Decidable (_ → _))

instance (d : Disk) : Decidable (DindInside d) := inferInstanceAs (Decidable (_ → _))

instance (d : Disk) : Decidable (ReservedFirst d) := inferInstanceAs (Decidable (∀ r < _, _ → _))

/-- The file system has one group and is laid out as `mke2fs` does, with the metadata above
block 1. -/
structure Shaped (d : Disk) : Prop extends OneGroup d where
  above : AboveGdt (blockAt d 1)
  first : SevenReserved d
  dind : DindInside d
  before : ReservedFirst d

/-- The double-indirect block of inode 7 is not the block bitmap either. -/
structure Standard (d : Disk) : Prop extends Shaped d where
  apart : reservedGdt d.sb ≠ 0 → resizeDind d ≠ blockBitmap (blockAt d 1) 0

/-- What the old file system consists of is on `d'` as on `d`: its superblock, the descriptor
of group 0, and all blocks but those before the metadata of group 0, the padding of its
bitmap and the number of sectors of inode 7. -/
structure Kept (d d' : Disk) : Prop where
  size : d'.size = d.size
  super : d'.sb = d.sb
  desc : ∀ o < 18, blockAt d' 1 o = blockAt d 1 o
  map : ∀ k < (geometry d.sb).blocks,
    bit (blockAt d' (blockBitmap (blockAt d 1) 0)) k = bit (blockAt d (blockBitmap (blockAt d 1) 0)) k
  resize : reservedGdt d.sb ≠ 0 → ∀ o,
    o < resizeOff d.sb + 28 ∨ resizeOff d.sb + 32 ≤ o →
      blockAt d' (resizeBlock d.sb (blockAt d 1)) o = blockAt d (resizeBlock d.sb (blockAt d 1)) o
  other : ∀ b < (geometry d.sb).blocks, prefixEnd (blockAt d 1) 0 ≤ b → b ≠ blockBitmap (blockAt d 1) 0 →
    (reservedGdt d.sb ≠ 0 → b ≠ resizeBlock d.sb (blockAt d 1)) → blockAt d' b = blockAt d b

theorem Kept.refl (d : Disk) : Kept d d :=
  ⟨rfl, rfl, fun _ _ => rfl, fun _ _ => rfl, fun _ _ _ => rfl, fun _ _ _ _ _ => rfl⟩

section

variable {sectors : Nat} (hc : CleanFs sectors d) (hs : Shaped d)

include hc hs

/-- The inodes lie in the inode table of group 0. -/
theorem Shaped.inodeBlock_in {i : Nat} (hi : i < (geometry d.sb).ipg) :
    (inodeTable (blockAt d 1) 0 ≤ inodeBlock (geometry d.sb) (blockAt d 1) (i + 1) ∧
      inodeBlock (geometry d.sb) (blockAt d 1) (i + 1) <
        inodeTable (blockAt d 1) 0 + (geometry d.sb).inodeTableBlocks) ∧
    inodeBlock (geometry d.sb) (blockAt d 1) (i + 1) < (geometry d.sb).blocks ∧
    inodeBlock (geometry d.sb) (blockAt d 1) (i + 1) ≠ blockBitmap (blockAt d 1) 0 := by
  obtain ⟨hg, hge, hin⟩ := Install.inodeBlock_in (blockAt d 1) hc.valid hc.groups (hs.inodes ▸ hi)
  rw [Nat.div_eq_of_lt hi] at hg hge hin
  exact ⟨⟨hge, hin⟩, hc.meta_lt hg (table_mem hge hin),
    (table_ne (List.nodup_append.mp hc.nodup).1 hg hg hge hin).1⟩

theorem Shaped.resizeBlock_eq (hipg : 7 ≤ (geometry d.sb).ipg) :
    resizeBlock d.sb (blockAt d 1) = inodeBlock (geometry d.sb) (blockAt d 1) (6 + 1) := by
  have hlt := (hs.inodeBlock_in hc (show 6 < (geometry d.sb).ipg by omega)).2.1
  have hsum : inodeBlock (geometry d.sb) (blockAt d 1) (6 + 1) =
      r32 (blockAt d 1) 8 + 6 * r16 d.sb 88 / bs := by
    rw [inodeBlock, Nat.div_eq_of_lt (show 6 < (geometry d.sb).ipg by omega),
      Nat.mod_eq_of_lt (show 6 < (geometry d.sb).ipg by omega), inodeTable, Nat.zero_mul]
    rfl
  have h32 : (geometry d.sb).blocks < 2 ^ 32 := r32_lt _ _
  rw [resizeBlock, ← hsum, Nat.mod_eq_of_lt (lt_trans hlt h32)]

omit hc hs in
theorem resizeOff_eq (hipg : 7 ≤ (geometry d.sb).ipg) :
    resizeOff d.sb = inodeOff (geometry d.sb) (6 + 1) := by
  rw [inodeOff, Nat.mod_eq_of_lt (show 6 < (geometry d.sb).ipg by omega)]
  rfl

/-- The block of inode 7 lies there as well, if it is used. -/
theorem Shaped.resizeBlock_in (hres : reservedGdt d.sb ≠ 0) :
    (inodeTable (blockAt d 1) 0 ≤ resizeBlock d.sb (blockAt d 1) ∧
      resizeBlock d.sb (blockAt d 1) <
        inodeTable (blockAt d 1) 0 + (geometry d.sb).inodeTableBlocks) ∧
    resizeBlock d.sb (blockAt d 1) < (geometry d.sb).blocks ∧
    resizeBlock d.sb (blockAt d 1) ≠ blockBitmap (blockAt d 1) 0 := by
  have hipg := hs.seven hres
  rw [hs.resizeBlock_eq hc hipg]
  exact hs.inodeBlock_in hc (by omega)

omit hc in
theorem Shaped.prefix_le : 2 ≤ prefixEnd (blockAt d 1) 0 ∧ prefixEnd (blockAt d 1) 0 ≤ blockBitmap (blockAt d 1) 0 ∧
    prefixEnd (blockAt d 1) 0 ≤ inodeBitmap (blockAt d 1) 0 ∧
      prefixEnd (blockAt d 1) 0 ≤ inodeTable (blockAt d 1) 0 := by
  have hle := hs.above.le
  refine ⟨hle, ?_⟩
  rw [prefixEnd]
  omega

/-- Blocks before the metadata, and those beyond the file system, are not part of it. -/
theorem Kept.frame {S : Nat → Prop} (h : Kept d d₁) (hf : Frame S d₁ d₂)
    (hS : ∀ b, S b → 2 ≤ b ∧ b < prefixEnd (blockAt d 1) 0 ∨ (geometry d.sb).blocks ≤ b) : Kept d d₂ := by
  obtain ⟨hle, hbb, -, hit⟩ := hs.prefix_le
  have hlt := hc.meta_lt hc.groups.1 blockBitmap_mem
  have hone := hc.one
  have hout : ∀ b, b < 2 ∨ prefixEnd (blockAt d 1) 0 ≤ b → b < (geometry d.sb).blocks →
      blockAt d₂ b = blockAt d₁ b := fun b hb hin => hf.block b fun hs => by
    have := hS b hs
    omega
  refine ⟨hf.size.trans h.size, ?_, fun o ho => ?_, fun k hk => ?_, fun hres o ho => ?_, fun b hb hp h1 h2 => ?_⟩
  · rw [superblock_congr (hout 0 (by omega) (by omega)), h.super]
  · rw [hout 1 (by omega) hone]
    exact h.desc o ho
  · rw [hout _ (.inr hbb) hlt]
    exact h.map k hk
  · obtain ⟨⟨hge, -⟩, hin, -⟩ := hs.resizeBlock_in hc hres
    rw [hout _ (by omega) hin]
    exact h.resize hres o ho
  · rw [hout b (.inr hp) hb]
    exact h.other b hb hp h1 h2

end

/-- A block is written, in part or as a whole, with what it has where the old file system
looks at it. -/
theorem Kept.write (h : Kept d d₁) (hn : n ≤ spb * 512) (hzero : b ≠ 0)
    (hdesc : b = 1 → ∀ o < 18, m o = blockAt d 1 o)
    (hmap : b = blockBitmap (blockAt d 1) 0 → ∀ k < (geometry d.sb).blocks,
      bit m k = bit (blockAt d (blockBitmap (blockAt d 1) 0)) k)
    (hres : b = resizeBlock d.sb (blockAt d 1) → reservedGdt d.sb ≠ 0 → ∀ o,
      o < resizeOff d.sb + 28 ∨ resizeOff d.sb + 32 ≤ o →
        m o = blockAt d (resizeBlock d.sb (blockAt d 1)) o)
    (hother : prefixEnd (blockAt d 1) 0 ≤ b → b = blockBitmap (blockAt d 1) 0 ∨
      reservedGdt d.sb ≠ 0 ∧ b = resizeBlock d.sb (blockAt d 1)) :
    Kept d (d₁.overwrite (b * spb * 512) n m) := by
  have hframe : Frame (fun b' => b' = b) d₁ (d₁.overwrite (b * spb * 512) n m) :=
    .write hn rfl
  refine ⟨h.size, ?_, fun o ho => ?_, fun k hk => ?_, fun hr o ho => ?_, fun b' hb hp h1 h2 => ?_⟩
  · rw [superblock_congr (hframe.block 0 hzero.symm), h.super]
  · by_cases hb : 1 = b
    · rw [hb, blockAt_part ((hdesc hb.symm o ho).trans (hb ▸ (h.desc o ho).symm)), ← hb, h.desc o ho]
    · rw [hframe.block 1 hb, h.desc o ho]
  · by_cases hb : blockBitmap (blockAt d 1) 0 = b
    · rw [hb, bit_part ((hmap hb.symm k hk).trans (hb ▸ (h.map k hk).symm)), ← hb, h.map k hk]
    · rw [hframe.block _ hb, h.map k hk]
  · by_cases hb : resizeBlock d.sb (blockAt d 1) = b
    · rw [hb, blockAt_part ((hres hb.symm hr o ho).trans (hb ▸ (h.resize hr o ho).symm)), ← hb, h.resize hr o ho]
    · rw [hframe.block _ hb, h.resize hr o ho]
  · rw [hframe.block b' fun heq => ?_, h.other b' hb hp h1 h2]
    rcases hother (heq ▸ hp) with hbb | ⟨hr, hbr⟩
    · exact h1 (heq.trans hbb)
    · exact h2 hr (heq.trans hbr)

section

variable {sectors i : Nat} (hc : CleanFs sectors d) (hs : Shaped d) (h : Kept d d₁)

include hc hs h

omit hc hs in
theorem Kept.r16_eq {o : Nat} (ho : o + 2 ≤ 18) : r16 (blockAt d₁ 1) o = r16 (blockAt d 1) o :=
  r16_congr (h.desc _ (by omega)) (h.desc _ (by omega))

omit hc hs in
theorem Kept.r32_eq {o : Nat} (ho : o + 4 ≤ 18) : r32 (blockAt d₁ 1) o = r32 (blockAt d 1) o :=
  r32_congr fun i hi => h.desc _ (by omega)

/-- A block that no metadata of group 0 takes is not written. -/
theorem Kept.data (hb : b < (geometry d.sb).blocks)
    (hmeta : b ∉ groupMeta (geometry d.sb) (blockAt d 1) 0) : blockAt d₁ b = blockAt d b := by
  refine h.other b hb ?_ (fun heq => hmeta (heq ▸ blockBitmap_mem)) fun hr heq => ?_
  · exact Nat.le_of_not_lt fun hlt => hmeta (low_mem hlt)
  · obtain ⟨⟨hge, hlt⟩, -⟩ := hs.resizeBlock_in hc hr
    exact hmeta (heq ▸ table_mem hge hlt)

/-- The inodes are as they were, up to the number of sectors of inode 7. -/
theorem Kept.inode (hi : i < (geometry d.sb).ipg) : SameInode (inodeOn d i) (inodeOn d₁ i) ∨
    modeOf (inodeOn d₁ i) = modeOf (inodeOn d i) ∧ i + 1 < (geometry d.sb).firstIno ∧ i + 1 ≠ 2 := by
  obtain ⟨⟨hge, -⟩, hlt, hne⟩ := hs.inodeBlock_in hc hi
  have hplace : inodeBlock (geometry d.sb) (blockAt d₁ 1) (i + 1) =
      inodeBlock (geometry d.sb) (blockAt d 1) (i + 1) := by
    rw [inodeBlock, inodeBlock, Nat.add_sub_cancel, Nat.div_eq_of_lt hi, inodeTable, inodeTable, h.r32_eq (by decide)]
  have hbyte : ∀ k, inodeOn d₁ i k = blockAt d₁ (inodeBlock (geometry d.sb) (blockAt d 1) (i + 1))
      (inodeOff (geometry d.sb) (i + 1) + k) := fun k => by
    rw [inodeOn, inodeAt, inodeOf, h.super, hplace]
  by_cases hres : reservedGdt d.sb ≠ 0 ∧
      inodeBlock (geometry d.sb) (blockAt d 1) (i + 1) = resizeBlock d.sb (blockAt d 1)
  · obtain ⟨hr, heq⟩ := hres
    have hfirst := hs.first hr
    have hipg := hs.seven hr
    have hkept : ∀ k, inodeOff (geometry d.sb) (i + 1) + k < resizeOff d.sb + 28 ∨
        resizeOff d.sb + 32 ≤ inodeOff (geometry d.sb) (i + 1) + k →
        inodeOn d₁ i k = inodeOn d i k := fun k hk => by
      rw [hbyte, heq, h.resize hr _ hk, ← heq]
      rfl
    have hsize : 128 ≤ (geometry d.sb).inodeSize := hc.valid.2.2.2.2.2.2.1
    rw [resizeOff_eq hipg] at hkept
    by_cases hseven : i = 6
    · subst hseven
      refine .inr ⟨?_, hfirst, by decide⟩
      rw [modeOf, modeOf, r16_congr (hkept 0 (by omega)) (hkept (0 + 1) (by omega))]
    · -- Two inodes of one block are at least the size of an inode apart.
      refine .inl fun k hk => hkept k ?_
      rw [hs.resizeBlock_eq hc hipg, inodeBlock, inodeBlock, Nat.add_sub_cancel,
        Nat.div_eq_of_lt hi, Nat.div_eq_of_lt (show 6 < (geometry d.sb).ipg by omega),
          Nat.mod_eq_of_lt hi, Nat.mod_eq_of_lt (show 6 < (geometry d.sb).ipg by omega)] at heq
      rw [inodeOff, inodeOff, Nat.add_sub_cancel, Nat.mod_eq_of_lt hi,
        Nat.mod_eq_of_lt (show 6 < (geometry d.sb).ipg by omega)]
      have hapart := offsets_apart hsize hseven (Nat.add_left_cancel heq)
      omega
  · refine .inl fun k _ => ?_
    rw [hbyte, h.other _ hlt ?_ hne fun hr heq => hres ⟨hr, heq⟩]
    · rfl
    · exact le_trans hs.prefix_le.2.2.2 hge

theorem Kept.inodeMap : blockAt d₁ (inodeBitmap (blockAt d 1) 0) = blockAt d (inodeBitmap (blockAt d 1) 0) := by
  have hn := (List.nodup_append.mp hc.nodup).1
  refine h.other _ (hc.meta_lt hc.groups.1 inodeBitmap_mem) hs.prefix_le.2.2.1 ?_ fun hr heq => ?_
  · exact (bitmaps_ne hn hc.groups.1 hc.groups.1).symm
  · obtain ⟨⟨hge, hlt⟩, -⟩ := hs.resizeBlock_in hc hr
    exact (table_ne hn hc.groups.1 hc.groups.1 hge hlt).2 heq.symm

/-- The blocks of files are as they were. -/
theorem Kept.reached (hi : AllocatedOn d i)
    (hb : b ∈ Install.reached d (geometry d.sb) (blockAt d 1) (i + 1)) : blockAt d₁ b = blockAt d b := by
  refine h.data hc hs (hc.range b (reached_usedBlocks hi hb)) fun hmeta => ?_
  exact (List.nodup_append.mp hc.nodup).2.2 b (groupMeta_sub hc.groups.1 hmeta) b
    (List.mem_flatMap.mpr ⟨i, mem_allocatedInodes.mpr hi, hb⟩) rfl

omit hc hs in
theorem Kept.zeroBlocks_eq : zeroBlocks d₁ 0 = zeroBlocks d 0 := by
  rw [zeroBlocks, h.super, blockBitmap, h.r32_eq (by decide)]
  refine zeros_congr fun k hk => h.map k ?_
  rw [groupEnd] at hk
  omega

theorem Kept.zeroInodes_eq : zeroInodes d₁ 0 = zeroInodes d 0 := by
  rw [zeroInodes, zeroInodes, h.super, inodeBitmap, h.r32_eq (by decide), ← inodeBitmap, h.inodeMap hc hs]

/-- So the file system is as clean as it was. -/
theorem Kept.cleanFs : CleanFs sectors d₁ := by
  have hgroups : (geometry d₁.sb).groups = 1 := by rw [h.super, hs.groups]
  have hext : Extended sectors d d₁ := by
    refine ⟨?_, ?_, ?_, ?_, ?_, ?_, ?_, ?_, ?_, ?_, h.r32_eq (by decide), h.r32_eq (by decide), h.r32_eq (by decide),
      h.map, fun k _ => by rw [h.inodeMap hc hs], fun i hi => h.inode hc hs hi,
      fun i hi b hb => h.reached hc hs hi hb, fun g hpos hg => by omega, fun g hg => ?_, ?_⟩
    · rw [h.super]
      exact hc.supported
    · rw [h.super]
      exact hc.state
    · rw [h.super]
    · rw [h.super]
    · rw [h.super]
    · rw [h.super]
    · rw [h.super]
    · rw [h.super]
      exact hc.valid.2.2.2.2.2.2.2.2.2.2.2
    · rw [hgroups]
      exact ⟨Nat.one_pos, by decide⟩
    · rw [hgroups, Nat.one_mul, h.super, hs.inodes]
    · obtain rfl : g = 0 := by omega
      obtain ⟨hfb, hfi, hdirs⟩ := hc.counters 0 hc.groups.1
      rw [h.zeroBlocks_eq, h.zeroInodes_eq hc hs, if_pos rfl]
      rw [Nat.zero_mul] at hfb hfi hdirs
      refine ⟨?_, ?_, ?_⟩
      · rw [Nat.zero_mul, h.r16_eq (by decide), hfb]
      · rw [Nat.zero_mul, h.r16_eq (by decide), hfi]
      · rw [Nat.zero_mul, h.r16_eq (by decide), hdirs]
    · have hsuper := hc.super
      rw [hs.groups, Finset.sum_range_one] at hsuper
      rw [hgroups, Finset.sum_range_one, Finset.sum_range_one, h.zeroBlocks_eq, h.zeroInodes_eq hc hs, h.super]
      exact hsuper
  exact hext.cleanFs hc hs.groups hs.inodes

end

end Lorica.Proof.Install

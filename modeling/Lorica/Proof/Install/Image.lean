import Lorica.Proof.Install.Grown

/-!
# ext2_grow: without faults

What each part of `ext2_grow` makes of an image, as a function (`groupsImage`, `resizeImage`,
`backupImage`). If the blocks that it touches are on the device, a run without faults writes
just that (`growBody_succeeds`, `ext2Grow_exec`).
-/

namespace Lorica.Proof.Install

open Lorica.Impl.Install Disk

variable {d d₁ d₂ : Disk} {p : Plan} {s : Grow} {sectors g j b : Nat}

/-! ## Blocks -/

section

variable {α : Type} {q : Rep α} {P Q : α → Disk → Prop}

theorem Safe.ends {K : Disk → Prop} (h : Safe K q d Q) : Ends q d Q :=
  Try.WP.weaken h (fun _ _ h => h) (fun _ _ _ => trivial) fun _ _ _ => trivial

theorem Succeeds.and_ends (h : Succeeds q d P) (h' : Ends q d Q) : Succeeds q d fun a d' => P a d' ∧ Q a d' := by
  have hQ : Try.WP (Allows false) q d Q (fun _ _ => True) fun _ _ => True :=
    WP.restrict h' fun c hc => by
      cases c with
      | ok => trivial
      | fail k => cases hc
  refine Lorica.WP.ends (WP.and h hQ) fun r d' hr => ?_
  cases r with
  | ok a => exact hr
  | error e => exact hr.1

theorem Succeeds.orFail (m : String) (h : Succeeds q d Q) : Succeeds (Impl.Install.orFail m q) d Q := Try.WP.adapt h

end

section

variable {sector count : Nat} {buf : Buf}

theorem growRead_succeeds (h : d.Has (sector * 512) (count * 512)) :
    Succeeds (growRead sector count) d fun r d' => d' = d ∧ r = d.slice (sector * 512) (count * 512) := by
  refine Try.WP.lift_bind (Q := fun r d' => d' = d ∧ r = some (d.slice (sector * 512) (count * 512))) ?_
    fun r d' hr => ?_
  · exact Dev.WP.read trivial (fun _ => ⟨rfl, rfl⟩) fun hf =>
      hf.elim (absurd h) fun hf => absurd hf Bool.false_ne_true
  · obtain ⟨rfl, rfl⟩ := hr
    exact Try.WP.pure ⟨rfl, rfl⟩

theorem writeChecked_succeeds (buf : Buf) (h : d.Has (sector * 512) (count * 512)) (hcount : count * 512 ≤ 65536) :
    Succeeds (writeChecked sector count buf) d fun _ d' => d' = d.overwrite (sector * 512) (count * 512) buf := by
  have hwrite : Succeeds (growWrite sector count buf) d fun _ d' =>
      d' = d.overwrite (sector * 512) (count * 512) buf := by
    refine Try.WP.lift_bind (Q := fun ok d' => ok = true ∧ d' = d.overwrite (sector * 512) (count * 512) buf) ?_
      fun ok d' hr => ?_
    · exact Dev.WP.write trivial (fun _ => ⟨rfl, rfl⟩) fun _ hf =>
        hf.elim (absurd h) fun hf => absurd hf Bool.false_ne_true
    · obtain ⟨rfl, rfl⟩ := hr
      exact Try.WP.pure rfl
  rw [writeChecked, if_neg (Nat.not_lt.mpr hcount)]
  refine Try.WP.bind hwrite fun _ d₁ h1 => ?_
  subst h1
  refine Try.WP.bind (growRead_succeeds h) fun b d₂ h2 => ?_
  obtain ⟨rfl, rfl⟩ := h2
  have hsame : sameBytes (count * 512) buf
      ((d.overwrite (sector * 512) (count * 512) buf).slice (sector * 512) (count * 512)) = true :=
    decide_eq_true fun i hi => by
      rw [slice_of_lt hi, overwrite_in (Nat.le_add_right _ _) (Nat.add_lt_add_left hi _), Nat.add_sub_cancel_left]
  rw [if_pos hsame]
  exact Try.WP.pure rfl

end

/-- Block `b` is on the device. -/
def HasBlock (d : Disk) (b : Nat) : Prop := (b + 1) * spb * 512 ≤ d.size

instance (d : Disk) (b : Nat) : Decidable (HasBlock d b) := inferInstanceAs (Decidable (_ ≤ _))

theorem HasBlock.has (h : HasBlock d b) : d.Has (b * spb * 512) (spb * 512) := by
  refine .inr (le_trans (le_of_eq ?_) h)
  rw [Nat.succ_mul, Nat.add_mul]

theorem HasBlock.mono {n : Nat} (h : n * spb * 512 ≤ d.size) (hb : b < n) : HasBlock d b :=
  le_trans (Nat.mul_le_mul_right 512 (Nat.mul_le_mul_right spb hb)) h

/-- The image with the block `b` written. -/
def putBlock (d : Disk) (b : Nat) (m : Buf) : Disk := d.overwrite (b * spb * 512) (spb * 512) m

/-- The image with blocks of zeros. -/
def putZeros (d : Disk) (first count : Nat) : Disk := d.overwrite (first * spb * 512) (count * spb * 512) fun _ => 0

theorem putBlock_size {m : Buf} : (putBlock d b m).size = d.size := rfl

theorem Frame.putBlock {S : Nat → Prop} {m : Buf} (h : Frame S d d₁) (hb : S b) : Frame S d (putBlock d₁ b m) :=
  h.trans (.write (le_refl _) hb)

theorem Frame.putZeros {S : Nat → Prop} {first count : Nat} (h : Frame S d d₁)
    (hb : ∀ b, first ≤ b → b < first + count → S b) : Frame S d (putZeros d₁ first count) :=
  h.trans (.overwrite (le_refl _) hb)

theorem growReadBlock_succeeds (h : HasBlock d b) :
    Succeeds (growReadBlock b) d fun r d' => d' = d ∧ r = blockAt d b :=
  growRead_succeeds h.has

theorem growWriteBlock_succeeds {buf : Buf} (h : HasBlock d b) :
    Succeeds (growWriteBlock b buf) d fun _ d' => d' = putBlock d b buf :=
  writeChecked_succeeds _ h.has (by decide)

theorem zeroBlocks_succeeds {first count : Nat} (h : (first + count) * spb * 512 ≤ d.size) :
    Succeeds (Impl.Install.zeroBlocks first count) d fun _ d' => d' = putZeros d first count := by
  have hloop := Try.WP.loop (M := machine) (A := Allows false) (E := fun (_ : Option String) _ => False)
    (C := fun _ _ => True) (f := fun c _ => writeChecked ((first + c * zeroChunk) * spb)
      (min (count - c * zeroChunk) zeroChunk * spb) fun _ => 0) (n := (count + zeroChunk - 1) / zeroChunk) (i := 0)
    (x := ()) (s := d) (fun c _ d' => d' = putZeros d first (min (c * zeroChunk) count)) ?_ fun c _ hc _ d₁ h1 => ?_
  · refine Try.WP.mono hloop fun _ d' h' => ?_
    rwa [Nat.min_eq_right (by simp only [zeroChunk]; omega)] at h'
  · rw [putZeros, Nat.zero_mul, Nat.zero_min, Nat.zero_mul, Nat.zero_mul, overwrite_zero]
  have hlt : c * zeroChunk < count := by
    simp only [zeroChunk] at hc ⊢
    omega
  subst h1
  refine Try.WP.mono (writeChecked_succeeds _ ?_ ?_) fun _ d₂ h2 => ?_
  · refine .inr (le_trans ?_ h)
    rw [← Nat.add_mul, ← Nat.add_mul]
    exact Nat.mul_le_mul_right 512 (Nat.mul_le_mul_right spb (by omega))
  · exact le_trans (Nat.mul_le_mul_right 512 (Nat.mul_le_mul_right spb (Nat.min_le_right _ _))) (by decide)
  · -- The next chunk goes on where the last one has stopped.
    have happend : (d.overwrite (first * spb * 512) _ fun _ => 0).overwrite _ _ (fun _ => 0) = d.overwrite _ _ _ :=
      overwrite_append (c * zeroChunk * spb * 512) (min (count - c * zeroChunk) zeroChunk * spb * 512)
    rw [← Nat.add_mul, ← Nat.add_mul, ← Nat.add_mul, ← Nat.add_mul] at happend
    rw [h2, putZeros, Nat.min_eq_left hlt.le, happend, putZeros]
    congr 3
    simp only [zeroChunk] at hlt ⊢
    omega

/-- What the rounds of a loop come to. -/
def rounds {σ : Type} (f : Nat → σ → σ) : Nat → Nat → σ → σ
  | 0, _, x => x
  | n + 1, i, x => rounds f n (i + 1) (f i x)

theorem Succeeds.loop {σ : Type} {f : Nat → σ → Rep σ} {n i : Nat} {x : σ} (step : Nat → σ × Disk → σ × Disk)
    (hsize : ∀ j y, (step j y).2.size = y.2.size)
    (hstep : ∀ j, i ≤ j → j < i + n → ∀ y d', d'.size = d.size →
      Succeeds (f j y) d' fun y' d'' => (y', d'') = step j (y, d')) :
    Succeeds (Try.loop f n i x) d fun y d' => (y, d') = rounds step n i (x, d) := by
  have h := Try.WP.loop (M := machine) (A := Allows false) (E := fun (_ : Option String) _ => False)
    (C := fun _ _ => True) (f := f) (n := n) (i := i) (x := x) (s := d)
    (fun j y d' => d'.size = d.size ∧ rounds step (i + n - j) j (y, d') = rounds step n i (x, d))
    ⟨rfl, by rw [Nat.add_sub_cancel_left]⟩ fun j hj hj' y d' hy => ?_
  · refine Try.WP.mono h fun y d' hy => ?_
    rw [Nat.sub_self] at hy
    exact hy.2
  · refine Try.WP.mono (hstep j hj hj' y d' hy.1) fun y' d'' hy' => ⟨?_, ?_⟩
    · exact (congrArg (fun z => z.2.size) hy').trans ((hsize j (y, d')).trans hy.1)
    · rw [← hy.2, show i + n - j = i + n - (j + 1) + 1 by omega, rounds, ← hy']

/-! ## The image -/

/-- Group 0: the variables and the image. -/
def group0Image (p : Plan) (d : Disk) : Grow × Disk :=
  (⟨w16 (blockAt d 1) 12 (r16 (blockAt d 1) 12 + (group0End d.sb p - r32 d.sb 4)),
      r32 d.sb 12 + (group0End d.sb p - r32 d.sb 4), 0⟩,
    putBlock d (r32 (blockAt d 1) 0)
      (bitmapClearRange (blockAt d (r32 (blockAt d 1) 0)) (r32 d.sb 4) (group0End d.sb p)))

/-- A new group. -/
def groupImage (sb : Buf) (p : Plan) (g : Nat) (x : Grow × Disk) : Grow × Disk :=
  (addGroup sb p g x.1, putZeros (putBlock (putBlock x.2 (newMap sb g)
    (bitmapClearRange ones (groupTaken sb g) (groupValid sb p g))) (newMap sb g + 1)
    (bitmapClearRange ones 0 (r32 sb 40))) (newMap sb g + 2) (geometry sb).inodeTableBlocks)

def groupsImage (p : Plan) (d : Disk) : Grow × Disk :=
  rounds (groupImage d.sb p) (p.groups - 1) 1 (group0Image p d)

/-- The double-indirect block of inode 7, as it is found. -/
def dindBlock (sb gdt : Buf) (d : Disk) : Nat := r32 (blockAt d (resizeBlock sb gdt)) (resizeOff sb + 92)

/-- Inode 7 and the reserved blocks. -/
def resizeImage (sb : Buf) (p : Plan) (s : Grow) (d : Disk) : Disk :=
  if reservedGdt sb = 0 then d
  else putBlock (rounds (fun r (x : Unit × Disk) => (x.1, putBlock x.2
    (r32 (blockAt d (dindBlock sb s.gdt d)) ((r + 1) * 4)) (backupRefs sb r (p.groups - 1) 1 0 fun _ => 0)))
    (reservedGdt sb) 0 ((), d)).2 (resizeBlock sb s.gdt)
      (resizeInode sb s.backupCount (blockAt d (resizeBlock sb s.gdt)))

/-- The copies in group `g`. -/
def backupImage (sb sb₁ gdt : Buf) (g : Nat) (x : Unit × Disk) : Unit × Disk :=
  if hasSparseSuper g = true then
    rounds (fun r (x : Unit × Disk) => (x.1, putZeros x.2 (g * r32 sb 32 + 2 + r) 1)) (reservedGdt sb) 0
      (x.1, putBlock (putBlock x.2 (g * r32 sb 32) (backupSuper sb₁ g)) (g * r32 sb 32 + 1) gdt)
  else x

/-- The image up to the superblock, and with it. -/
def bodyImage (p : Plan) (d : Disk) : Disk :=
  let x := groupsImage p d
  putBlock (rounds (backupImage d.sb (growSuper d.sb p x.1.freeBlocks) x.1.gdt) (p.groups - 1) 1
    ((), resizeImage d.sb p x.1 x.2)).2 1 x.1.gdt

def grownImage (p : Plan) (d : Disk) : Disk :=
  (bodyImage p d).overwrite (2 * 512) (2 * 512) (growSuper d.sb p (groupsImage p d).1.freeBlocks)

theorem rounds_ind {σ : Type} {f : Nat → σ → σ} {P : σ → Prop} {n i : Nat} {x : σ} (h : P x)
    (hstep : ∀ j y, i ≤ j → P y → P (f j y)) : P (rounds f n i x) := by
  induction n generalizing i x with
  | zero => exact h
  | succ n ih => exact ih (hstep i x (le_refl i) h) fun j y hj => hstep j y (by omega)

theorem rounds_size {σ : Type} {f : Nat → σ × Disk → σ × Disk} {n i : Nat} {x : σ × Disk}
    (hsize : ∀ j y, (f j y).2.size = y.2.size) : (rounds f n i x).2.size = x.2.size :=
  rounds_ind (P := fun y => y.2.size = x.2.size) rfl fun j y _ h => (hsize j y).trans h

theorem backupImage_size {sb sb₁ gdt : Buf} (g : Nat) (x : Unit × Disk) :
    (backupImage sb sb₁ gdt g x).2.size = x.2.size := by
  rw [backupImage]
  split
  · exact rounds_size fun _ _ => rfl
  · rfl

theorem groupsImage_size : (groupsImage p d).2.size = d.size := rounds_size fun _ _ => rfl

theorem resizeImage_size {sb : Buf} : (resizeImage sb p s d).size = d.size := by
  rw [resizeImage]
  split
  · rfl
  · rw [putBlock_size]
    exact rounds_size fun _ _ => putBlock_size

/-- The new groups are written behind the old one, of which the block bitmap changes. -/
theorem groupsImage_frame :
    Frame (fun b => b = blockBitmap (blockAt d 1) 0 ∨ (geometry d.sb).bpg ≤ b) d (groupsImage p d).2 := by
  have hbb : r32 (blockAt d 1) 0 = blockBitmap (blockAt d 1) 0 := by rw [blockBitmap, Nat.zero_mul]
  refine rounds_ind
    (P := fun x : Grow × Disk => Frame (fun b => b = blockBitmap (blockAt d 1) 0 ∨ (geometry d.sb).bpg ≤ b) d x.2)
    (.write (le_refl _) (.inl hbb)) fun j x hj h => ?_
  have hnew : (geometry d.sb).bpg ≤ newMap d.sb j := le_newMap hj
  exact ((h.putBlock (.inr hnew)).putBlock (.inr (by omega))).putZeros fun b hb _ => .inr (by omega)

/-- The places in the descriptor of group 0 are as they were. -/
theorem groupsImage_gdt : ∀ o < 12, (groupsImage p d).1.gdt o = blockAt d 1 o := by
  refine rounds_ind (P := fun x : Grow × Disk => ∀ o < 12, x.1.gdt o = blockAt d 1 o) (fun o ho => w16_out (by omega))
    fun j x hj h o ho => ?_
  have hmul : descSize ≤ j * descSize := Nat.le_mul_of_pos_left _ hj
  have hsize : descSize = 32 := rfl
  exact (bgdSet_out (by omega)).trans (h o ho)

/-! ## The parts -/

/-- The blocks of inode 7 can be read and written. -/
def Reaches (sb : Buf) (s : Grow) (d : Disk) : Prop :=
  reservedGdt sb ≠ 0 → HasBlock d (resizeBlock sb s.gdt) ∧ dindBlock sb s.gdt d ≠ 0 ∧
    HasBlock d (dindBlock sb s.gdt d) ∧
    ∀ r < reservedGdt sb, r32 (blockAt d (dindBlock sb s.gdt d)) ((r + 1) * 4) ≠ 0 ∧
      HasBlock d (r32 (blockAt d (dindBlock sb s.gdt d)) ((r + 1) * 4))

instance (sb : Buf) (s : Grow) (d : Disk) : Decidable (Reaches sb s d) :=
  inferInstanceAs (Decidable (reservedGdt sb ≠ 0 → _ ∧ _ ∧ _ ∧ ∀ r < reservedGdt sb, _ ∧ _))

theorem growGroup0_succeeds (hbb : r32 (blockAt d 1) 0 ≠ 0) (h : HasBlock d (r32 (blockAt d 1) 0)) :
    Succeeds (growGroup0 d.sb p (blockAt d 1)) d fun s d' => (s, d') = group0Image p d := by
  rw [growGroup0, if_neg hbb]
  refine Try.WP.bind (Succeeds.orFail _ (growReadBlock_succeeds h)) fun bitmap d₁ h1 => ?_
  obtain ⟨rfl, rfl⟩ := h1
  refine Try.WP.bind (Succeeds.orFail _ (growWriteBlock_succeeds h)) fun _ d₂ h2 => Try.WP.pure ?_
  rw [h2]
  rfl

theorem growGroup_succeeds {sb : Buf} (hroom : groupTaken sb g < groupValid sb p g)
    (h : (newMap sb g + 2 + (geometry sb).inodeTableBlocks) * spb * 512 ≤ d.size) :
    Succeeds (growGroup sb p g s) d fun s' d' => (s', d') = groupImage sb p g (s, d) := by
  have hb0 : HasBlock d (newMap sb g) := .mono h (by omega)
  have hb1 : HasBlock d (newMap sb g + 1) := .mono h (by omega)
  rw [growGroup, if_neg (by omega)]
  refine Try.WP.bind (Succeeds.orFail _ (growWriteBlock_succeeds hb0)) fun _ d₁ h1 => ?_
  subst h1
  refine Try.WP.bind (Succeeds.orFail _ (growWriteBlock_succeeds hb1)) fun _ d₂ h2 => ?_
  subst h2
  refine Try.WP.bind (Succeeds.orFail _ (zeroBlocks_succeeds h)) fun _ d3 h3 => Try.WP.pure ?_
  rw [h3]
  rfl

theorem growResizeInode_succeeds {sb : Buf} (h : Reaches sb s d) :
    Succeeds (growResizeInode sb p s) d fun _ d' => d' = resizeImage sb p s d := by
  rw [growResizeInode, resizeImage]
  split
  · exact Try.WP.pure rfl
  rename_i hres
  obtain ⟨hblock, hzero, hdind, hlisted⟩ := h hres
  refine Try.WP.bind (Succeeds.orFail _ (growReadBlock_succeeds hblock)) fun block d₁ h1 => ?_
  obtain ⟨rfl, rfl⟩ := h1
  show Succeeds (if dindBlock sb s.gdt d₁ = 0 then _ else _) _ _
  rw [if_neg hzero]
  refine Try.WP.bind (Succeeds.orFail _ (growReadBlock_succeeds hdind)) fun refs d₂ h2 => ?_
  obtain ⟨rfl, rfl⟩ := h2
  refine Try.WP.bind (Succeeds.loop (fun r (x : Unit × Disk) => (x.1, putBlock x.2
      (r32 (blockAt d₂ (dindBlock sb s.gdt d₂)) ((r + 1) * 4)) (backupRefs sb r (p.groups - 1) 1 0 fun _ => 0)))
    (fun _ _ => putBlock_size) fun r _ hr y d' hd' => ?_) fun _ d3 h3 => ?_
  · obtain ⟨hnext, hhas⟩ := hlisted r (by omega)
    have hhas' : HasBlock d' _ := le_trans hhas hd'.ge
    show Succeeds (if r32 (blockAt d₂ (dindBlock sb s.gdt d₂)) ((r + 1) * 4) = 0 then _ else _) _ _
    rw [if_neg hnext]
    refine Try.WP.bind (Succeeds.orFail _ (growReadBlock_succeeds hhas')) fun _ d4 h4 => ?_
    obtain ⟨rfl, -⟩ := h4
    exact Try.WP.mono (Succeeds.orFail _ (growWriteBlock_succeeds hhas')) fun _ d5 h5 => Prod.ext rfl h5
  · have hsize : d3.size = d₂.size := by
      refine (congrArg (fun z => z.2.size) h3).trans ?_
      exact rounds_size fun _ _ => putBlock_size
    have hlast : HasBlock d3 (resizeBlock sb s.gdt) := le_trans hblock hsize.ge
    refine Try.WP.mono (Succeeds.orFail _ (growWriteBlock_succeeds hlast)) fun _ d4 h4 => ?_
    rw [h4, ← h3]

theorem growBackup_succeeds {sb sb1 gdt : Buf} (u : Unit)
    (h : hasSparseSuper g = true → (g * r32 sb 32 + 2 + reservedGdt sb) * spb * 512 ≤ d.size) :
    Succeeds (growBackup sb sb1 gdt g u) d fun u' d' => (u', d') = backupImage sb sb1 gdt g (u, d) := by
  rw [growBackup, backupImage]
  split
  · rename_i hsparse
    have hb0 : HasBlock d (g * r32 sb 32) := .mono (h hsparse) (by omega)
    have hb1 : HasBlock d (g * r32 sb 32 + 1) := .mono (h hsparse) (by omega)
    refine Try.WP.bind (Succeeds.orFail _ (growWriteBlock_succeeds hb0)) fun _ d₁ h1 => ?_
    subst h1
    refine Try.WP.bind (Succeeds.orFail _ (growWriteBlock_succeeds hb1)) fun _ d₂ h2 => ?_
    subst h2
    refine Succeeds.loop _ (fun _ _ => rfl) fun r _ hr y d' hd' => ?_
    have hend : (g * r32 sb 32 + 2 + r + 1) * spb * 512 ≤ d'.size :=
      HasBlock.mono (le_trans (h hsparse) hd'.ge) (by omega)
    exact Try.WP.mono (Succeeds.orFail _ (zeroBlocks_succeeds hend)) fun _ d5 h5 => Prod.ext rfl h5
  · exact Try.WP.pure rfl

/-- The device holds all that `ext2_grow` reads and writes, and what it asks of the image on the
way is there. -/
def Ready (d : Disk) (p : Plan) : Prop :=
  HasBlock d 1 ∧ r32 (blockAt d 1) 0 ≠ 0 ∧ HasBlock d (r32 (blockAt d 1) 0) ∧ (∀ g < p.groups, 0 < g →
    groupTaken d.sb g < groupValid d.sb p g ∧
      (newMap d.sb g + 2 + (geometry d.sb).inodeTableBlocks) * spb * 512 ≤ d.size) ∧
    Reaches d.sb (groupsImage p d).1 (groupsImage p d).2

instance (d : Disk) (p : Plan) : Decidable (Ready d p) := inferInstanceAs (Decidable (_ ∧ _))

/-- Without faults `ext2_grow` writes the image up to the superblock. -/
theorem growBody_succeeds (h : Ready d p) : Succeeds (growBody d.sb p) d fun sb1 d' =>
    sb1 = growSuper d.sb p (groupsImage p d).1.freeBlocks ∧ d' = bodyImage p d := by
  obtain ⟨hone, hbb, hmap, hgroups, hreach⟩ := h
  rw [growBody]
  refine Try.WP.bind (Succeeds.orFail _ (growReadBlock_succeeds hone)) fun gdt d₁ h1 => ?_
  obtain ⟨rfl, rfl⟩ := h1
  refine Try.WP.bind (growGroup0_succeeds (p := p) hbb hmap) fun s d₂ h2 => ?_
  have hsize2 : d₂.size = d₁.size := congrArg (fun z => z.2.size) h2
  refine Try.WP.bind (Succeeds.loop (groupImage d₁.sb p) (fun _ _ => rfl) fun j hj hj' s d' hd' =>
    growGroup_succeeds (hgroups j (by omega) hj).1 ((hd'.trans hsize2) ▸ (hgroups j (by omega) hj).2)) fun s d3 h3 => ?_
  rw [h2] at h3
  obtain rfl : s = (groupsImage p d₁).1 := congrArg Prod.fst h3
  obtain rfl : d3 = (groupsImage p d₁).2 := congrArg Prod.snd h3
  refine Try.WP.bind (growResizeInode_succeeds hreach) fun _ d4 h4 => ?_
  subst h4
  have hsize4 : (resizeImage d₁.sb p (groupsImage p d₁).1 (groupsImage p d₁).2).size = d₁.size :=
    resizeImage_size.trans groupsImage_size
  refine Try.WP.bind (Succeeds.loop _ backupImage_size fun g hg hg' u d' hd' => growBackup_succeeds u fun hsparse => ?_)
    fun u d5 h5 => ?_
  · have hprefix : groupPrefix d₁.sb g = 2 + reservedGdt d₁.sb := if_pos hsparse
    have hdev := (hgroups g (by omega) hg).2
    rw [newMap, hprefix] at hdev
    rw [hd', hsize4]
    exact le_trans (Nat.mul_le_mul_right 512 (Nat.mul_le_mul_right spb (show g * (geometry d₁.sb).bpg + 2 +
      reservedGdt d₁.sb ≤ _ by omega))) hdev
  · have hsize5 : d5.size = d₁.size :=
      (congrArg (fun z => z.2.size) h5).trans ((rounds_size backupImage_size).trans hsize4)
    refine Try.WP.bind (Succeeds.orFail _ (growWriteBlock_succeeds (le_trans hone hsize5.ge)))
      fun _ d6 h6 => Try.WP.pure ?_
    refine ⟨rfl, ?_⟩
    rw [h6, bodyImage, ← h5]

/-! ## The whole -/

theorem Succeeds.exec {α : Type} {q : Rep α} {Q : α → Disk → Prop} (h : Succeeds q d Q) :
    ∃ a d', q.run.exec (fun _ => .ok) d = (.ok a, d') ∧ Q a d' := by
  have hend := WP.exec_done (show WP (M := machine) (Allows false) q.run d _ _ from h) (σ := fun _ => .ok)
    fun _ => trivial
  generalize q.run.exec (fun _ => .ok) d = e at hend
  obtain ⟨e | a, d'⟩ := e
  · exact hend.elim
  · exact ⟨a, d', rfl, hend⟩

/-- The superblock is one of a file system of one group, and the target is larger. -/
def Enlarges (sb : Buf) (target : Nat) : Prop :=
  growSupported sb ∧ resizable sb ∧ (geometry sb).groups = 1 ∧ (geometry sb).blocks < partitionBlocks sb target

instance (sb : Buf) (target : Nat) : Decidable (Enlarges sb target) := inferInstanceAs (Decidable (_ ∧ _))

/-- `ext2_grow` without the reasons to fail. -/
theorem Enlarges.growFs_eq {sb : Buf} {target : Nat} (h : Enlarges sb target) :
    growFs target sb = growTo sb (plan sb (partitionBlocks sb target)) := by
  obtain ⟨hsupported, hresizable, hone, hmore⟩ := h
  have hmany := groupsFor_le (Nat.zero_lt_of_lt hmore) (Nat.pos_of_ne_zero hresizable.2.1)
  have htable : groupsFor sb (partitionBlocks sb target) * descSize ≤ bs :=
    le_trans (Nat.mul_le_mul_right descSize hmany) (by decide)
  have hone : (r32 sb 4 + r32 sb 32 - 1) % 2 ^ 32 / r32 sb 32 = 1 := hone
  have hmore : ¬ partitionBlocks sb target ≤ r32 sb 4 := Nat.not_le.mpr hmore
  rw [growFs, if_neg (not_not.mpr hsupported), if_neg (not_not.mpr hresizable), if_neg (not_not.mpr hone),
    if_neg hmore, if_neg (not_or.mpr ⟨Nat.not_lt.mpr hmany, Nat.not_lt.mpr htable⟩)]

theorem Enlarges.spb_le {sb : Buf} {target : Nat} (h : Enlarges sb target) : spb ≤ target := by
  have hpos : 0 < target / spb := lt_of_lt_of_le (Nat.zero_lt_of_lt h.2.2.2) (partitionBlocks_le sb target).1
  exact (Nat.div_pos_iff.mp hpos).2

theorem super_exec (h : HasBlock d 1) :
    (orFail "cannot read ext2 superblock" (growRead 2 2)).run.exec (fun _ => .ok) d = (.ok d.sb, d) := by
  have hhas : d.Has (2 * 512) (2 * 512) := .inr (le_trans (by decide) h)
  obtain ⟨sb, d', hrun, rfl, rfl⟩ := (Succeeds.orFail "cannot read ext2 superblock" (growRead_succeeds hhas)).exec
  exact hrun

/-- Without faults `ext2_grow` returns 0 and leaves the grown image. -/
theorem ext2Grow_exec (target : Nat) (h : Enlarges d.sb target)
    (hr : Ready d (plan d.sb (partitionBlocks d.sb target))) :
    (ext2Grow target).run.exec (fun _ => .ok) d = (.ok ((plan d.sb (partitionBlocks d.sb target)).targetBlocks * spb),
      grownImage (plan d.sb (partitionBlocks d.sb target)) d) := by
  obtain ⟨sb1, d₁, hbody, rfl, rfl⟩ := (growBody_succeeds hr).exec
  have hsize : (bodyImage (plan d.sb (partitionBlocks d.sb target)) d).size = d.size :=
    (rounds_size backupImage_size).trans (resizeImage_size.trans groupsImage_size)
  have hhas : (bodyImage (plan d.sb (partitionBlocks d.sb target)) d).Has (2 * 512) (2 * 512) :=
    .inr (le_trans (le_trans (by decide) hr.1) hsize.ge)
  obtain ⟨u, d', hlast, rfl⟩ := (Succeeds.orFail "cannot commit expanded ext2 superblock"
    (writeChecked_succeeds (growSuper d.sb (plan d.sb (partitionBlocks d.sb target))
      (groupsImage (plan d.sb (partitionBlocks d.sb target)) d).1.freeBlocks) hhas (by decide))).exec
  rw [ext2Grow, if_neg (Nat.not_lt.mpr h.spb_le), Try.exec_bind (super_exec hr.1), h.growFs_eq, growTo,
    Try.exec_bind hbody, Try.exec_bind hlast]
  rfl

end Lorica.Proof.Install

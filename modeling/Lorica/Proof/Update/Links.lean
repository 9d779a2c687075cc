import Lorica.Proof.Update.Slots

/-!
# lorica-update: where links are read

`fat_open` takes the number of clusters from the size of the data area, and the size of a FAT as the
boot sector has it, and does not compare the two. So the entry of a cluster can lie behind the first
FAT, in the next one, the root directory or the data (`links_in_fat_iff`). The loops over chains are
counted: they make a bounded number of operations, and read the links of clusters of the data area
only (`bounded_dirFind`, `bounded_markLoop`, `bounded_fileLoop`).
-/

namespace Lorica.Proof.Update

open Lorica.Impl.Update Disk

/-- The two bytes at an offset are in the first FAT that the boot sector declares. -/
def InFat (b : Buf) (fs : Fat16) (off : Nat) : Prop :=
  sectorOff fs (le16 b 14) ≤ off ∧ off + 2 ≤ sectorOff fs (le16 b 14 + le16 b 22)

/-- A range of the root directory, or of the data of one cluster. -/
def InData (fs : Fat16) (off len : Nat) : Prop :=
  (∃ i < fs.rootSectors, off = sectorOff fs (fs.rootSector + i) ∧ len = 512) ∨
    ∃ c, inRange fs c = true ∧ clusterOff fs c ≤ off ∧ off + len ≤ clusterOff fs c + clusterBytes fs

/-- What a traversal does: it reads the link of a cluster, or reads or writes data. -/
def Follows (fs : Fat16) : Disk.Op → Prop
  | .read off len => (∃ c, inRange fs c = true ∧ off = entryOff fs c ∧ len = 2) ∨ InData fs off len
  | .write off len _ => InData fs off len

/-- Links are read in the first FAT, and traversals of the chains end. -/
structure Confined (b : Buf) (fs : Fat16) : Prop where
  entry : ∀ c < fs.clusterCount + 2, InFat b fs (entryOff fs c)
  dir : ∀ c name, Bounded (Follows fs)
    (fs.rootSectors + (fs.clusterCount + 1) * (fs.sectorsPerCluster + 1)) (dirFind fs c name)
  mark : ∀ need c used, Bounded (Follows fs) need (markLoop fs need c used)
  file : ∀ f buf, Bounded (Follows fs) (fs.clusterCount * 2) (fileIo fs f buf)

variable {fs : Fat16} {c : Nat}

theorem bounded_fatNext (hc : inRange fs c = true) : Bounded (Follows fs) 1 (fatNext fs c) := by
  refine .bind (n := 0) (.call (.inl ⟨c, hc, rfl, rfl⟩)) fun r => ?_
  split <;> exact .pure _

theorem bounded_dirBlocks (name : Bytes) {off : Nat → Nat} {n i : Nat}
    (h : ∀ j, i ≤ j → j < i + n → InData fs (off j) 512) :
    Bounded (Follows fs) n (dirBlocks name off n i) := by
  induction n generalizing i with
  | zero => exact .pure _
  | succ n ih =>
    rw [dirBlocks, Nat.add_comm]
    refine .bind (.call (.inr (h i le_rfl (by omega)))) fun r => ?_
    split
    · exact .pure _
    split
    · exact .pure _
    · exact ih fun j hj hlt => h j (by omega) (by omega)

theorem bounded_dirClusters (name : Bytes) {left : Nat} (hc : inRange fs c = true) :
    Bounded (Follows fs) ((left + 1) * (fs.sectorsPerCluster + 1)) (dirClusters fs name left c) := by
  have hblocks : ∀ c, inRange fs c = true → Bounded (Follows fs) fs.sectorsPerCluster
      (dirBlocks name (fun i => clusterOff fs c + i * 512) fs.sectorsPerCluster 0) := by
    intro c hc
    refine bounded_dirBlocks name fun j _ hj => .inr ⟨c, hc, Nat.le_add_right _ _, ?_⟩
    rw [clusterBytes]
    omega
  induction left generalizing c with
  | zero =>
    rw [dirClusters]
    refine ((hblocks c hc).bind (n := 0) fun r => ?_).mono (by omega)
    split <;> exact .pure _
  | succ left ih =>
    rw [dirClusters, show (left + 1 + 1) * (fs.sectorsPerCluster + 1) =
      fs.sectorsPerCluster + (1 + (left + 1) * (fs.sectorsPerCluster + 1)) by ring]
    refine (hblocks c hc).bind fun r => ?_
    split
    · exact .pure _
    · exact .pure _
    refine (bounded_fatNext hc).bind fun r => ?_
    split
    · exact .pure _
    split
    · exact .pure _
    split
    · exact .pure _
    · rename_i h
      exact ih (by simpa using h)

theorem bounded_dirFind (c : Nat) (name : Bytes) : Bounded (Follows fs)
    (fs.rootSectors + (fs.clusterCount + 1) * (fs.sectorsPerCluster + 1)) (dirFind fs c name) := by
  unfold dirFind
  split
  · refine .bind (bounded_dirBlocks name fun j _ hj => .inl ⟨j, by omega, rfl, rfl⟩) fun r => ?_
    split <;> exact .pure _
  split
  · exact .pure _
  · rename_i h
    exact (bounded_dirClusters name (by simpa using h)).mono (Nat.le_add_left _ _)

theorem bounded_markLoop (need c : Nat) (used : List Nat) : Bounded (Follows fs) need (markLoop fs need c used) := by
  induction need generalizing c used with
  | zero => exact .pure _
  | succ need ih =>
    rw [markLoop]
    split
    · exact .pure _
    split
    · exact .pure _
    rename_i h _
    rw [Nat.add_comm]
    refine (bounded_fatNext (by simpa using (not_or.mp h).1)).bind fun r => ?_
    split
    · exact .pure _
    split
    · exact .pure _
    · exact ih _ _

theorem bounded_chunkIo {buf : Option Buf} {off done n : Nat} (h : InData fs off n) :
    Bounded (Follows fs) 1 (chunkIo buf off done n) := by
  unfold chunkIo
  split
  · exact .call (.inr h)
  · refine .bind (n := 0) (.call h) fun r => ?_
    split <;> exact .pure _

theorem bounded_fileLoop {size : Nat} {buf : Option Buf} (left c done : Nat) :
    Bounded (Follows fs) (left * 2) (fileLoop fs size buf left c done) := by
  induction left generalizing c done with
  | zero => exact .pure _
  | succ left ih =>
    rw [fileLoop, Nat.succ_mul, Nat.add_comm, show 2 + left * 2 = 1 + (1 + left * 2) by omega]
    split
    · exact .pure _
    split
    · exact .pure _
    rename_i h
    have hc : inRange fs c = true := by simpa using h
    refine (bounded_chunkIo (.inr ⟨c, hc, le_rfl, by omega⟩)).bind fun r => ?_
    split
    · exact .pure _
    split
    · exact .pure _
    refine (bounded_fatNext hc).bind fun r => ?_
    split
    · exact .pure _
    split
    · exact .pure _
    · exact (ih _ _).bind (n := 0) fun r => .pure _

theorem fatOfBoot_fatSector {b : Buf} (h : fatOfBoot b = some fs) : fs.fatSector = le16 b 14 := by
  unfold fatOfBoot at h
  dsimp only at h
  split_ifs at h
  cases h
  rfl

/-- Links are read in the FAT exactly when it has the sectors for the entries of all clusters, which
`fat_open` does not look at. -/
theorem links_in_fat_iff {b : Buf} {fs : Fat16} (h : fatOfBoot b = some fs) :
    Confined b fs ↔ (fs.clusterCount + 2) * 2 ≤ le16 b 22 * 512 := by
  have hbps := (fatOfBoot_sound h).1.bps
  have hin : ∀ c, InFat b fs (entryOff fs c) ↔ (c + 1) * 2 ≤ le16 b 22 * 512 := by
    intro c
    rw [InFat, entryOff, fatOfBoot_fatSector h, sectorOff, sectorOff, hbps]
    omega
  constructor
  · intro hc
    exact (hin _).mp (hc.entry (fs.clusterCount + 1) (by omega))
  · intro hle
    exact ⟨fun c hc => (hin c).mpr (by omega), bounded_dirFind, bounded_markLoop, fun f buf => bounded_fileLoop _ _ _⟩

theorem links_in_fat_sample : ∃ fs, fatOfBoot espBoot = some fs ∧ Confined espBoot fs := by
  have hopen : fatOfBoot espBoot = some ⟨512, 4, 1, 17, 1, 18, 4091⟩ := by decide
  exact ⟨_, hopen, (links_in_fat_iff hopen).mpr (by decide)⟩

/-- The same file system with one sector of FAT. -/
def shortFat : Buf := fun i => if i = 22 then 1 else espBoot i

theorem links_behind_fat : ∃ fs, fatOfBoot shortFat = some fs ∧ ¬ Confined shortFat fs := by
  refine ⟨⟨512, 4, 1, 2, 1, 3, 4095⟩, by decide, fun h => ?_⟩
  have hlast := (h.entry 4096 (by decide)).2
  exact absurd hlast (by decide)

end Lorica.Proof.Update
